import Xv6.Proc.Lineage

/-!
# What `kill` strikes

`kill` looks for the pid in every slot of the process table, and the slots that hold no process have pids too: 0 where
nothing has run yet or `wait` has collected a process, and the pid of the process that did not come to life where `fork`
has failed. A slot that is struck while it holds no process keeps its `killed` flag, which `allocproc` does not clear,
and so does a new process that is struck before `fork` gives it up.
-/

namespace Xv6.Ptable

open Lib

variable {K C : Type}

/-- What `kill(pid)` is for: it strikes one process with that pid, or says that there is none. -/
def KillSpec (procs : Slot → Proc C) (pid : Int32) : Prop :=
  (∃ p, (procs p).state ≠ .UNUSED ∧ (procs p).pid = pid ∧ kill procs pid = (0, killProc procs p)) ∨
    (∀ p, (procs p).state ≠ .UNUSED → (procs p).pid ≠ pid) ∧ kill procs pid = (-1, procs)

/-- The slot that `kill(pid)` finds, if any, holds a process. -/
def Aimed (procs : Slot → Proc C) (pid : Int32) : Prop := ∀ p ∈ findPid procs pid, (procs p).state ≠ .UNUSED

instance (procs : Slot → Proc C) (pid : Int32) : Decidable (Aimed procs pid) :=
  inferInstanceAs (Decidable (∀ p ∈ findPid procs pid, _))

variable {procs : Slot → Proc C} {pid : Int32}

theorem findPid_some {p : Slot} (h : findPid procs pid = some p) : (procs p).pid = pid := by
  have hfound := List.find?_some h
  exact of_decide_eq_true hfound

theorem findPid_none (h : findPid procs pid = none) (p : Slot) : (procs p).pid ≠ pid := by
  have hall := List.find?_eq_none.mp h p (List.mem_finRange p)
  simpa using hall

/-- No slot without a process is marked as killed. -/
def Clean (procs : Slot → Proc C) : Prop := ∀ p, (procs p).state = .UNUSED → (procs p).killed = false

/-- `kill` does what it is for when the slot that it finds holds a process, and only then. -/
theorem killSpec_iff (hclean : Clean procs) (pid : Int32) : KillSpec procs pid ↔ Aimed procs pid := by
  cases hfind : findPid procs pid with
  | none =>
    have hkill : kill procs pid = (-1, procs) := by simp [kill, hfind]
    refine iff_of_true (.inr ⟨fun p _ => findPid_none hfind p, hkill⟩) ?_
    simp [Aimed, hfind]
  | some p =>
    have hkill : kill procs pid = (0, killProc procs p) := by simp [kill, hfind]
    constructor
    · intro hspec q hq hunused
      obtain rfl : p = q := Option.mem_unique hfind hq
      rw [KillSpec, hkill] at hspec
      rcases hspec with ⟨r, hused, -, htable⟩ | ⟨-, hnone⟩
      · -- the flag of the slot without a process was clear, and is set
        have hne : p ≠ r := by
          rintro rfl
          exact hused hunused
        have hflag := congrArg (fun table => (table p).killed) (Prod.mk.inj htable).2
        simp [killProc, hne, hclean p hunused] at hflag
      · simp at hnone
    · intro h
      exact .inl ⟨p, h p hfind, findPid_some hfind, hkill⟩

/-- A change of a slot that marks nobody as killed, and lets no slot go that is marked. -/
structure Keeps (e e' : Proc C) : Prop where
  flag : e'.killed = true → e.killed = true
  unused : e'.state = .UNUSED → e.state = .UNUSED ∨ e'.killed = false

namespace Keeps

variable {procs : Slot → Proc C} {c : Slot} {e e' : Proc C}

theorem refl (e : Proc C) : Keeps e e := ⟨id, .inl⟩

theorem update (h : Keeps (procs c) e) (q : Slot) : Keeps (procs q) (Function.update procs c e q) := by
  by_cases hq : q = c
  · subst hq
    rwa [Function.update_self]
  · rw [Function.update_of_ne hq]
    exact refl _

theorem of_state (hflag : e'.killed = e.killed) (hstate : e'.state ≠ .UNUSED) : Keeps e e' :=
  ⟨fun h => hflag.symm.trans h, fun h => absurd h hstate⟩

theorem of_same (hflag : e'.killed = e.killed) (hstate : e'.state = e.state) : Keeps e e' :=
  ⟨fun h => hflag.symm.trans h, fun h => .inl (hstate.symm.trans h)⟩

end Keeps

namespace State

variable {s s' : State K C} {act : Action K C} {k : K} {p me : Slot}

/-- What a careful system does: it kills only processes, and `fork` gives up no process that has been killed. -/
def careful (s : State K C) : Action K C → Bool
  | .proc _ (.kill pid) => Aimed s.procs pid
  | .proc k (.kalloc none) =>
    match (s.cpu k).exec with
    | .stack p =>
      match s.thread p with
      | .free (.kalloc np) | .free (.copyuvm np) => !(s.procs np).killed
      | _ => true
    | _ => true
  | _ => true

variable {np : Slot} {point : Point}

theorem careful_noStack (hat : s.At k p me (.free (.kalloc np))) (h : s.careful (.proc k (.kalloc none)) = true) :
    (s.procs np).killed = false := by
  simpa [careful, hat.exec, hat.thread] using h

theorem careful_noDir (hat : s.At k p me (.free (.copyuvm np))) (h : s.careful (.proc k (.kalloc none)) = true) :
    (s.procs np).killed = false := by
  simpa [careful, hat.exec, hat.thread] using h

/-- The step strikes slot `p`: it kills the pid of the slot, or is a fault of the process. -/
def Struck (s : State K C) (act : Action K C) (p : Slot) : Prop :=
  (∃ k, act = .proc k (.kill (s.procs p).pid)) ∨ ∃ k, act = .proc k .fault ∧ (s.cpu k).proc = some p

section Steps

variable [DecidableEq C]

theorem exitProcs_keeps (procs : Slot → Proc C) (me q : Slot) : Keeps (procs q) (exitProcs procs me q) := by
  have hflag := exitProcs_field Proc.killed (fun _ _ _ => rfl) procs me q
  by_cases hq : q = me
  · subst hq
    exact .of_state hflag (by rw [exitProcs_self]; nofun)
  rcases exitProcs_state procs hq with hsame | hwoken
  · exact .of_same hflag hsame
  · exact .of_state hflag (by rw [hwoken.2]; nofun)

theorem wakeup1_keeps (procs : Slot → Proc C) (chan : Option (Chan C)) (q : Slot) :
    Keeps (procs q) (wakeup1 procs chan q) := by
  unfold wakeup1
  split
  · exact .of_state rfl nofun
  · exact .refl _

theorem Held.keeps (h : s.Held k p me s') (q : Slot) : Keeps (s.procs q) (s'.procs q) := by
  cases h with
  | exit => exact exitProcs_keeps s.procs me q
  | wait | alone | forkret | yielded => exact .refl _
  | reap c =>
    refine Keeps.update ?_ q
    exact ⟨nofun, fun _ => .inr rfl⟩
  | waitSleep | sleep | yield =>
    refine Keeps.update ?_ q
    exact .of_state rfl nofun
  | slept | woken =>
    refine Keeps.update ?_ q
    exact .of_same rfl rfl

/-- A careful step marks as killed only what it strikes, which is a process. -/
theorem Quiet.keeps (hq : s.Quiet act s') (h : s.Cpus) (hcareful : s.careful act = true) (q : Slot) :
    Keeps (s.procs q) (s'.procs q) ∨
      s.Struck act q ∧ (s.procs q).state ≠ .UNUSED ∧ (s'.procs q).state ≠ .UNUSED := by
  cases hq with
  | skip => exact .inl (.refl _)
  | found | launch =>
    refine .inl (Keeps.update ?_ q)
    exact .of_state rfl nofun
  | gotStack | gotDir | inherit =>
    refine .inl (Keeps.update ?_ q)
    exact .of_same rfl rfl
  | noStack k p me np hat hact =>
    refine .inl (Keeps.update ?_ q)
    exact ⟨id, fun _ => .inr (careful_noStack hat (hact ▸ hcareful))⟩
  | noDir k p me np a hat hkstack hact =>
    have hclear := careful_noDir hat (hact ▸ hcareful)
    refine .inl (Keeps.update ?_ q)
    exact ⟨id, fun _ => .inr hclear⟩
  | kill k pid p hlock hfind hact =>
    by_cases hqp : q = p
    · subst hqp
      have haimed : (s.procs q).state ≠ .UNUSED := by
        subst hact
        exact of_decide_eq_true hcareful q hfind
      refine .inr ⟨.inl ⟨k, by rw [hact, findPid_some hfind]⟩, haimed, ?_⟩
      by_cases hsleeping : (s.procs q).state = .SLEEPING <;> simp [killProc, hsleeping, haimed]
    · have hkeep : killProc s.procs p q = s.procs q := Function.update_of_ne hqp ..
      exact .inl (by simpa only [hkeep] using .refl _)
  | fault k p me hat hact =>
    by_cases hqme : q = me
    · subst hqme
      have hrunning : (s.procs q).state = .RUNNING := by
        rw [h.proc_eq hat]
        exact (h.pointOk hat).1
      exact .inr ⟨.inr ⟨k, hact, hat.proc⟩, by simp [hrunning], by simp [setProc, hrunning]⟩
    · have hkeep : (s.setProc me { s.procs me with killed := true }).procs q = s.procs q :=
        Function.update_of_ne hqme ..
      exact .inl (by simpa only [hkeep] using .refl _)
  | wakeup chan => exact .inl (wakeup1_keeps s.procs (some chan) q)

end Steps

theorem Switch.keeps [DecidableEq K] (h : s.Switch k s') (q : Slot) : Keeps (s.procs q) (s'.procs q) := by
  cases h with
  | sched =>
    refine Keeps.update ?_ q
    exact .of_same rfl rfl
  | pick =>
    refine Keeps.update ?_ q
    exact .of_state rfl nofun
  | start | enter | leave | done => exact .refl _

theorem clean_boot : Clean (boot : State K C).procs := by
  intro p _
  simp only [boot]
  split <;> rfl

variable [DecidableEq K] [DecidableEq C]

theorem Trans.keeps (htrans : s.Trans act s') (h : s.Cpus) (hcareful : s.careful act = true) (q : Slot) :
    Keeps (s.procs q) (s'.procs q) ∨
      s.Struck act q ∧ (s.procs q).state ≠ .UNUSED ∧ (s'.procs q).state ≠ .UNUSED := by
  cases htrans with
  | quiet hq => exact hq.keeps h hcareful q
  | held k p me hheld => exact .inl (hheld.keeps q)
  | switch k hswitch => exact .inl (hswitch.keeps q)

theorem Trans.clean (htrans : s.Trans act s') (h : s.Cpus) (hcareful : s.careful act = true)
    (hclean : Clean s.procs) : Clean s'.procs := by
  intro p hp
  cases htrans.keeps h hcareful p with
  | inl hkeeps =>
    cases hkeeps.unused hp with
    | inl hunused =>
      by_contra hkilled
      exact absurd (hkeeps.flag (by simpa using hkilled)) (by simp [hclean p hunused])
    | inr hclear => exact hclear
  | inr hstruck => exact absurd hp hstruck.2.2

theorem clean_of_careful {trace : List (Action K C)} (h : Run (guarded step careful) boot trace s) :
    Clean s.procs := by
  refine Run.invariant (P := fun _ (t : State K C) => Clean t.procs) clean_boot ?_ h
  intro trace act t u hrun hclean hstep
  obtain ⟨hcareful, hstep⟩ := guarded_eq_ok.mp hstep
  exact (trans_of_step hstep).clean (reachable hrun.of_guarded).cpus hcareful hclean

theorem act_kill {pid : Int32} (h : s.act k p me point (.kill pid) = some (.ok s')) :
    s'.procs = (kill s.procs pid).2 := by
  cases point with
  | free place =>
    cases place with
    | run =>
      obtain ⟨-, rfl⟩ := locked_ok (f := fun s => { s with procs := (kill s.procs pid).2 }) (fun _ _ => rfl) h
      rfl
    | kalloc | copyuvm | inherit | launch => cases h
  | resumed r => cases r <;> cases h
  | swtch | out | wait => cases h

/-- `fork` gives up the slot `np`, and its flag stays. -/
theorem act_kalloc_none (h : s.act k p me point (.kalloc none) = some (.ok s')) :
    ∃ np, (point = .free (.kalloc np) ∨ point = .free (.copyuvm np)) ∧ (s'.procs np).state = .UNUSED ∧
      (s'.procs np).killed = (s.procs np).killed := by
  cases point with
  | free place =>
    cases place with
    | kalloc np =>
      cases h
      exact ⟨np, .inl rfl, by simp [noStack, setProc, goto], by simp [noStack, setProc, goto]⟩
    | copyuvm np =>
      obtain ⟨t, ht, h⟩ := bind_eq_ok.mp (Option.some.inj h)
      obtain ⟨a, -, rfl⟩ := kfree_ok ht
      cases h
      exact ⟨np, .inr rfl, by simp [noDir, setProc, goto], by simp [noDir, setProc, goto]⟩
    | run | inherit | launch => cases h
  | resumed r => cases r <;> cases h
  | swtch | out | wait => cases h

/-- What is left of the process table after a step that is not careful. -/
theorem marked_of_careless (h : step s act = some (.ok s')) (hcareless : s.careful act = false) :
    ∃ p, (s'.procs p).state = .UNUSED ∧ (s'.procs p).killed = true := by
  cases act with
  | proc k act =>
    simp only [step] at h
    split at h
    · next p me hexec hproc =>
      cases act with
      | kill pid =>
        have hmissed := of_decide_eq_false hcareless
        simp only [Aimed, not_forall, not_not] at hmissed
        obtain ⟨q, hfind, hunused⟩ := hmissed
        have hprocs := act_kill h
        rw [kill, Option.mem_def.mp hfind] at hprocs
        exact ⟨q, by simp [hprocs, killProc, hunused], by simp [hprocs, killProc]⟩
      | kalloc page =>
        cases page with
        | none =>
          obtain ⟨np, hpoint, hunused, hkilled⟩ := act_kalloc_none h
          refine ⟨np, hunused, hkilled.trans ?_⟩
          cases hpoint with
          | inl hpoint | inr hpoint => simpa [careful, hexec, hpoint] using hcareless
        | some a => cases hcareless
      | fork | exit | wait | sleep | fault | yield | next => cases hcareless
    · cases h
  | scheduler | wakeup => cases hcareless

/-- In a run in which `kill` is called only when the slot that it finds holds a process, and `fork` gives up no process
that has been killed, `kill` strikes a process with the pid, or nothing if there is none; every process starts its life
with a clear flag; and a flag is set only by a `kill` of the pid of the process, or by a fault of the process. After any
other step a slot without a process is marked as killed. -/
theorem kill_strikes_its_target {trace : List (Action K C)} (h : Run (guarded step careful) boot trace s) :
    (∀ pid, KillSpec s.procs pid ↔ Aimed s.procs pid) ∧
      (∀ act s', guarded step careful s act = some (.ok s') →
        (∀ p, (s.procs p).state = .UNUSED → (s'.procs p).killed = false) ∧
          ∀ p, (s.procs p).killed = false → (s'.procs p).killed = true →
            (s.procs p).state ≠ .UNUSED ∧ s.Struck act p) ∧
      ∀ act s', step s act = some (.ok s') → s.careful act = false →
        ∃ p, (s'.procs p).state = .UNUSED ∧ (s'.procs p).killed = true := by
  have hclean := clean_of_careful h
  refine ⟨killSpec_iff hclean, fun act s' hstep => ?_, fun act s' => marked_of_careless⟩
  obtain ⟨hcareful, hstep⟩ := guarded_eq_ok.mp hstep
  have hkeeps := (trans_of_step hstep).keeps (reachable h.of_guarded).cpus hcareful
  constructor
  · intro p hunused
    cases hkeeps p with
    | inl hkept =>
      by_contra hkilled
      exact absurd (hkept.flag (by simpa using hkilled)) (by simp [hclean p hunused])
    | inr hstruck => exact absurd hunused hstruck.2.1
  · intro p hclear hkilled
    cases hkeeps p with
    | inl hkept => exact absurd (hkept.flag hkilled) (by simp [hclear])
    | inr hstruck => exact ⟨hstruck.2.1, hstruck.1⟩

/-- Init forks, and kills the child: the flag of the child is set, and that of init is not. -/
theorem kill_strikes_its_target_child :
    ∃ trace s, Run (guarded step careful) (boot : State Unit Unit) trace s ∧ KillSpec s.procs 2 ∧
      ((kill s.procs 2).2 1).killed = true ∧ ((kill s.procs 2).2 0).killed = false := by
  obtain ⟨s, hrun, hcheck⟩ := run_of_check (guarded step careful) (boot : State Unit Unit)
    [.scheduler () none, .scheduler () (some 0), .scheduler () none, .proc () .next, .proc () .fork,
      .proc () (.kalloc (some 2)), .proc () (.kalloc (some 3)), .proc () .next, .proc () .next]
    (fun s => Aimed s.procs 2 ∧ ((kill s.procs 2).2 1).killed = true ∧ ((kill s.procs 2).2 0).killed = false)
    (by decide +kernel)
  obtain ⟨haimed, hchild, hinit⟩ := of_decide_eq_true hcheck
  exact ⟨_, s, hrun, ((kill_strikes_its_target hrun).1 2).mpr haimed, hchild, hinit⟩

/-- Nothing has pid 0, but `kill(0)` succeeds: it marks a slot without a process, and the next process, with pid 2, is
born there with its flag set. -/
theorem kill_zero_strikes_the_next_process :
    ∃ start s t, Run step (boot : State Unit Unit) start s ∧ (∀ p, (s.procs p).state ≠ .UNUSED → (s.procs p).pid ≠ 0) ∧
      (kill s.procs 0).1 = 0 ∧ ¬KillSpec s.procs 0 ∧
      Run step (boot : State Unit Unit)
        (start ++ [.proc () (.kill 0), .proc () .fork, .proc () (.kalloc (some 2)), .proc () (.kalloc (some 3)),
          .proc () .next, .proc () .next]) t ∧
      (t.procs 1).state = .RUNNABLE ∧ (t.procs 1).pid = 2 ∧ (t.procs 1).killed = true := by
  obtain ⟨s, hrun, hcheck⟩ := run_of_check step (boot : State Unit Unit)
    [.scheduler () none, .scheduler () (some 0), .scheduler () none, .proc () .next]
    (fun s => (∀ p, (s.procs p).state ≠ .UNUSED → (s.procs p).pid ≠ 0) ∧ (kill s.procs 0).1 = 0 ∧
      ¬Aimed s.procs 0 ∧ ∀ p, (s.procs p).state = .UNUSED → (s.procs p).killed = false) (by decide +kernel)
  obtain ⟨t, hrun', hcheck'⟩ := run_of_check step (boot : State Unit Unit)
    [.scheduler () none, .scheduler () (some 0), .scheduler () none, .proc () .next, .proc () (.kill 0), .proc () .fork,
      .proc () (.kalloc (some 2)), .proc () (.kalloc (some 3)), .proc () .next, .proc () .next]
    (fun t => (t.procs 1).state = .RUNNABLE ∧ (t.procs 1).pid = 2 ∧ (t.procs 1).killed = true) (by decide +kernel)
  obtain ⟨hpids, hreturns, hmissed, hclean⟩ := of_decide_eq_true hcheck
  obtain ⟨hstate, hpid, hkilled⟩ := of_decide_eq_true hcheck'
  refine ⟨_, s, t, hrun, hpids, hreturns, ?_, hrun', hstate, hpid, hkilled⟩
  exact fun hspec => hmissed ((killSpec_iff hclean 0).mp hspec)

end State

end Xv6.Ptable
