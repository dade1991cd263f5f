import Xv6.Proc.Lineage

/-!
# A process runs on at most one CPU

In every reachable state the CPUs and the process table agree, so what `wait` takes out of the table is executed by no
CPU: the CPU of the caller has the lock, and the process of every other CPU is `RUNNING`.
-/

namespace Xv6.Ptable

open Lib
open Function (update update_of_ne)

variable {K C : Type}

namespace State

variable {s s' : State K C} {act : Action K C} {k k' : K} {p me : Slot}

/-- CPU `k` executes process `p`: it is its current process, or its stack or its page directory is in use. -/
def Executes (s : State K C) (k : K) (p : Slot) : Prop :=
  (s.cpu k).proc = some p ∨ (s.cpu k).exec = .stack p ∨ (s.cpu k).cr3 = some p

theorem Cpus.proc_of_executes (h : s.Cpus) (hexec : s.Executes k p) : (s.cpu k).proc = some p := by
  have hok := h.ok k
  rcases hexec with hproc | hstack | hcr3
  · exact hproc
  · exact h.proc_of_stack hstack
  cases he : (s.cpu k).exec with
  | idle | scan => simp [he, ExecOk, hcr3] at hok
  | enter | leave =>
    rw [he] at hok
    obtain ⟨q, hq, hq', -⟩ := hok
    rwa [hq'.symm.trans hcr3] at hq
  | stack q =>
    rw [he] at hok
    exact hok.1.trans (hok.2.1.symm.trans hcr3)

/-- The current process of a CPU is `RUNNING`, or has given up the CPU, which then holds the lock. -/
theorem Cpus.state_of_proc (h : s.Cpus) (hproc : (s.cpu k).proc = some p) :
    (s.procs p).state = .RUNNING ∨ (s.procs p).state.GivenUp ∧ s.lock = some k := by
  have hok := h.ok k
  cases he : (s.cpu k).exec with
  | idle | scan => simp [he, ExecOk, hproc] at hok
  | enter =>
    rw [he] at hok
    obtain ⟨q, hq, -, hrunning, -⟩ := hok
    rw [Option.mem_unique hproc hq]
    exact .inl hrunning
  | leave =>
    rw [he] at hok
    obtain ⟨q, hq, -, hgiven, hlock⟩ := hok
    rw [Option.mem_unique hproc hq]
    exact .inr ⟨hgiven, hlock⟩
  | stack q =>
    rw [he] at hok
    obtain ⟨hq, -, hpoint⟩ := hok
    rw [Option.mem_unique hproc hq]
    cases hthread : s.thread q with
    | free | resumed | wait => exact .inl (hthread ▸ hpoint).1
    | swtch =>
      rw [hthread] at hpoint
      exact .inr hpoint
    | out => exact (hthread ▸ hpoint).elim

variable {c : Slot}

/-- No CPU executes the zombie that `wait` has found. -/
theorem Cpus.not_executes_zombie (h : s.Cpus) (hat : s.At k p me .wait) (hfind : findZombie s.procs me = some c)
    (k' : K) : ¬s.Executes k' c := by
  intro hexec
  have hproc := h.proc_of_executes hexec
  have hzombie := (findZombie_some hfind).2
  cases h.state_of_proc hproc with
  | inl hrunning => cases hrunning.symm.trans hzombie
  | inr hgiven =>
    -- only the CPU of the caller has the lock, and its process is `RUNNING`
    obtain ⟨hrunning, hlock⟩ := h.pointOk hat
    obtain rfl : k = k' := Option.mem_unique hlock hgiven.2
    obtain rfl : p = c := Option.mem_unique (h.proc_of_stack hat.exec) hproc
    cases hrunning.symm.trans hzombie

/-- No CPU executes a slot that is being set up. -/
theorem Cpus.not_executes_embryo (h : s.Cpus) (hembryo : (s.procs p).state = .EMBRYO) (k : K) : ¬s.Executes k p := by
  intro hexec
  cases h.state_of_proc (h.proc_of_executes hexec) with
  | inl hrunning => cases hrunning.symm.trans hembryo
  | inr hgiven => exact (hembryo ▸ hgiven.1 : ProcState.EMBRYO.GivenUp).elim

variable [DecidableEq K] [DecidableEq C]

omit [DecidableEq K] in
/-- A thread that changes a zombie has found it in `wait`. -/
theorem Held.reaps (h : s.Cpus) (hheld : s.Held k p me s') (hzombie : (s.procs c).state = .ZOMBIE)
    (hgone : (s'.procs c).state ≠ .ZOMBIE) : s.At k p me .wait ∧ findZombie s.procs me = some c := by
  have hc : c ≠ p := by
    rintro rfl
    cases (hheld.running h).symm.trans hzombie
  have hset {point : Point} {e : Proc C} (hat : s.At k p me point) :
      (update s.procs me e c).state = .ZOMBIE := by
    obtain rfl := h.proc_eq hat
    rw [update_of_ne hc, hzombie]
  cases hheld with
  | exit hat =>
    obtain rfl := h.proc_eq hat
    rcases exitProcs_state s.procs hc with hsame | hwoken
    · exact absurd (hsame.trans hzombie) hgone
    · cases hwoken.1.symm.trans hzombie
  | wait | alone | forkret | yielded => exact absurd hzombie hgone
  | reap c' a b hat hlock hfind =>
    by_cases hcc : c = c'
    · exact ⟨hat, hcc ▸ hfind⟩
    · exact absurd ((congrArg Proc.state (update_of_ne hcc ..)).trans hzombie) hgone
  | waitSleep hat | sleep chan hat | yield place hat | slept hat | woken hat => exact absurd (hset hat) hgone

/-- When `wait` takes a zombie out of the table, no CPU executes it. -/
theorem Trans.not_executes (htrans : s.Trans act s') (h : s.Cpus) (hn : s.Nursery)
    (hzombie : (s.procs c).state = .ZOMBIE) (hgone : (s'.procs c).state ≠ .ZOMBIE) (k : K) : ¬s.Executes k c := by
  cases htrans with
  | quiet hq =>
    have hmoves := hq.moves hn c
    generalize hb : (s'.procs c).state = b at hmoves hgone
    cases hmoves <;> simp_all
  | held k' p me hheld =>
    obtain ⟨hat, hfind⟩ := hheld.reaps h hzombie hgone
    exact h.not_executes_zombie hat hfind k
  | switch k' hswitch =>
    cases hswitch.state c with
    | inl hsame => exact absurd (hsame.trans hzombie) hgone
    | inr hpicked => cases hpicked.1.symm.trans hzombie

/-- The pages that a step frees belong to a zombie or to a new process that no CPU executes. -/
theorem Trans.frees (htrans : s.Trans act s') (h : s.Cpus) (hn : s.Nursery) {page : ℕ} (hused : s.mem page ≠ none)
    (hfreed : s'.mem page = none) :
    ∃ c, (s'.procs c).state = .UNUSED ∧ ((s.procs c).state = .ZOMBIE ∨ (s.procs c).state = .EMBRYO) ∧
      ((s.procs c).kstack = some page ∨ (s.procs c).pgdir = some page) ∧ ∀ k, ¬s.Executes k c := by
  have halloc {a : ℕ} {use : Use} (hfreed : update s.mem a (some use) page = none) : False := by
    by_cases ha : page = a
    · simp [ha] at hfreed
    · exact hused (by rwa [update_of_ne ha] at hfreed)
  cases htrans with
  | quiet hq =>
    cases hq with
    | gotStack k p me np a | gotDir k p me np a => exact (halloc hfreed).elim
    | noDir k p me np a hat hkstack =>
      have hembryo := hn.of_free hat.thread rfl
      obtain rfl : page = a := by
        by_contra ha
        have hkept : update s.mem a none page = s.mem page := update_of_ne ha ..
        exact hused (hkept.symm.trans hfreed)
      exact ⟨np, by simp [noDir, setProc, goto], .inr hembryo, .inl hkstack, h.not_executes_embryo hembryo⟩
    | _ => exact absurd hfreed hused
  | held k p me hheld =>
    cases hheld with
    | reap c a b hat hlock hfind hkstack hpgdir =>
      refine ⟨c, by simp [reap, setProc, goto], .inl (findZombie_some hfind).2, ?_, h.not_executes_zombie hat hfind⟩
      by_cases hb : page = b
      · exact .inr (hb ▸ hpgdir)
      · by_cases ha : page = a
        · exact .inl (ha ▸ hkstack)
        · simp only [reap, setProc, goto, update_of_ne hb, update_of_ne ha] at hfreed
          exact absurd hfreed hused
    | _ => exact absurd hfreed hused
  | switch k hswitch =>
    cases hswitch <;> exact absurd hfreed hused

/-- In every reachable state a process is the current one of at most one CPU; when the lock is free it is `RUNNING` if
and only if it is current; a CPU that is about to switch to a process finds its kernel stack unused; and what a step
frees, of a zombie that `wait` has found or of a process that `fork` has failed to set up, no CPU executes. -/
theorem one_cpu_per_process {trace : List (Action K C)} (h : Run step boot trace s) :
    (∀ k k' p, (s.cpu k).proc = some p → (s.cpu k').proc = some p → k = k') ∧
      (s.lock = none → ∀ p, (s.procs p).state = .RUNNING ↔ ∃ k, (s.cpu k).proc = some p) ∧
      (∀ k p, (s.cpu k).exec = .enter → (s.cpu k).proc = some p → ∀ k', (s.cpu k').exec ≠ .stack p) ∧
      ∀ a s', step s a = some (.ok s') →
        (∀ c, (s.procs c).state = .ZOMBIE → (s'.procs c).state ≠ .ZOMBIE → ∀ k, ¬s.Executes k c) ∧
          ∀ page, s.mem page ≠ none → s'.mem page = none →
            ∃ c, (s'.procs c).state = .UNUSED ∧ ((s.procs c).state = .ZOMBIE ∨ (s.procs c).state = .EMBRYO) ∧
              ((s.procs c).kstack = some page ∨ (s.procs c).pgdir = some page) ∧ ∀ k, ¬s.Executes k c := by
  have hreach := reachable h
  have hc := hreach.cpus
  have hn := nursery_of_ties hreach.ties
  refine ⟨hc.single, ?_, ?_, ?_⟩
  · intro hlock p
    refine ⟨hc.running p, ?_⟩
    rintro ⟨k, hk⟩
    exact (hc.free_of_unlocked (by simp [hlock]) hk).2.1
  · intro k p hexec hproc k' hk'
    obtain rfl := hc.single k k' p hproc (hc.proc_of_stack hk')
    cases hexec.symm.trans hk'
  · intro a s' hstep
    have htrans := trans_of_step hstep
    exact ⟨fun c => htrans.not_executes hc hn, fun page => htrans.frees hc hn⟩

/-- One CPU runs init, which has forked, and another runs the child: the first does not run the child too. -/
theorem one_cpu_per_process_two_cpus :
    ∃ trace s, Run step (boot : State Bool Unit) trace s ∧ (s.cpu true).proc = some 1 ∧
      (s.cpu false).proc ≠ some 1 := by
  obtain ⟨s, hrun, hcheck⟩ := run_of_check step (boot : State Bool Unit)
    [.scheduler false none, .scheduler false (some 0), .scheduler false none, .proc false .next,
      .proc false .fork, .proc false (.kalloc (some 2)), .proc false (.kalloc (some 3)), .proc false .next,
      .proc false .next, .scheduler true none, .scheduler true (some 1), .scheduler true none, .proc true .next]
    (fun s => (s.cpu true).proc = some 1) (by decide +kernel)
  have hchild := of_decide_eq_true hcheck
  refine ⟨_, s, hrun, hchild, fun hinit => ?_⟩
  cases (one_cpu_per_process hrun).1 true false 1 hchild hinit

end State

end Xv6.Ptable
