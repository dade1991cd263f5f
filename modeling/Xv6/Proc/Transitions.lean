import Xv6.Proc.Ptable

/-!
# What one step of the process table can do

Every step that succeeds is one of the transitions below, with the lock, the CPU and the program point that it starts
from. The properties of runs are proved from the list of transitions, not from the step function.
-/

namespace Xv6.Ptable

open Lib
open Function (update update_self update_of_ne)

variable {K C : Type}

section Table

/-- What a process that may have been woken up is. -/
inductive Woken (chan : Option (Chan C)) (e : Proc C) : Proc C → Prop
  | same : Woken chan e e
  | woken : e.state = .SLEEPING → e.chan = chan → Woken chan e { e with state := .RUNNABLE }

namespace Woken

variable {chan : Option (Chan C)} {e e' e'' : Proc C}

variable (h : Woken chan e e')

include h

theorem trans (h' : Woken chan e' e'') : Woken chan e e'' := by
  cases h with
  | same => exact h'
  | woken hstate hchan =>
    cases h' with
    | same => exact .woken hstate hchan
    | woken hstate' => cases hstate'

theorem setParent (parent : Option Slot) : Woken chan { e with parent := parent } { e' with parent := parent } := by
  cases h with
  | same => exact .same
  | woken hstate hchan => exact .woken hstate hchan

theorem parent : e'.parent = e.parent := by
  cases h <;> rfl

theorem eq : e' = { e with state := e'.state } := by
  cases h <;> rfl

theorem chan_eq : e'.chan = e.chan := by
  cases h <;> rfl

theorem context : e'.context = e.context := by
  cases h <;> rfl

theorem kstack : e'.kstack = e.kstack := by
  cases h <;> rfl

theorem pgdir : e'.pgdir = e.pgdir := by
  cases h <;> rfl

/-- Only the state can change, and only that of a sleeper. -/
theorem state : e'.state = e.state ∨ e.state = .SLEEPING ∧ e'.state = .RUNNABLE := by
  cases h with
  | same => exact .inl rfl
  | woken hstate => exact .inr ⟨hstate, rfl⟩

theorem eq_of_ne (hstate : e.state ≠ .SLEEPING) : e' = e := by
  cases h with
  | same => rfl
  | woken hsleeping => exact absurd hsleeping hstate

end Woken

variable {procs : Slot → Proc C} {me p : Slot} {c : Slot}

theorem findZombie_some (h : findZombie procs me = some c) :
    (procs c).parent = some me ∧ (procs c).state = .ZOMBIE := by
  have hfound := List.find?_some h
  exact of_decide_eq_true hfound

theorem findZombie_none (h : findZombie procs me = none) (c : Slot) (hparent : (procs c).parent = some me) :
    (procs c).state ≠ .ZOMBIE := by
  have hall := List.find?_eq_none.mp h c (List.mem_finRange c)
  simpa [hparent] using hall

variable [DecidableEq C]

theorem wakeup1_woken (procs : Slot → Proc C) (chan : Option (Chan C)) (p : Slot) :
    Woken chan (procs p) (wakeup1 procs chan p) := by
  unfold wakeup1
  split
  · next h => exact .woken h.1 h.2
  · exact .same

theorem wakeup1_state {chan : Option (Chan C)} (hstate : (procs p).state = .SLEEPING) (hchan : (procs p).chan = chan) :
    (wakeup1 procs chan p).state = .RUNNABLE := by
  simp [wakeup1, hstate, hchan]

/-- The parent of a process after `me` has passed its children to init. -/
def heir (me : Slot) (parent : Option Slot) : Option Slot := if parent = some me then some initproc else parent

theorem heir_heir (me : Slot) (parent : Option Slot) : heir me (heir me parent) = heir me parent := by
  unfold heir
  split_ifs <;> simp_all

/-- One round changes the parent of one slot, and wakes up processes that sleep on init. -/
theorem passToInit_woken (me : Slot) (procs : Slot → Proc C) (q p : Slot) : Woken (some (.proc initproc))
      { procs p with parent := if p = q then heir me (procs p).parent else (procs p).parent }
      (passToInit me procs q p) := by
  -- the table with the new parent, before anyone is woken up
  have hset : (procs q).parent = some me →
      update procs q { procs q with parent := some initproc } p =
        { procs p with parent := if p = q then heir me (procs p).parent else (procs p).parent } := by
    intro hq
    by_cases hp : p = q
    · subst hp
      simp [heir, hq]
    · simp [hp]
  by_cases hq : (procs q).parent = some me
  · rw [← hset hq, passToInit, if_pos hq]
    split
    · exact wakeup1_woken _ _ p
    · exact .same
  have hkeep : (if p = q then heir me (procs p).parent else (procs p).parent) = (procs p).parent := by
    split
    · next hp => rw [hp, heir, if_neg hq]
    · rfl
  rw [hkeep, passToInit, if_neg hq]
  exact .same

/-- The loop of `exit` over the slots `ps`. -/
theorem foldl_passToInit_woken (me : Slot) (ps : List Slot) (procs : Slot → Proc C) (p : Slot) :
    Woken (some (.proc initproc))
      { procs p with parent := if p ∈ ps then heir me (procs p).parent else (procs p).parent }
      (ps.foldl (passToInit me) procs p) := by
  induction ps generalizing procs with
  | nil => exact .same
  | cons q ps ih =>
    have hround := passToInit_woken me procs q p
    have hrest := ih (passToInit me procs q)
    rw [hround.parent] at hrest
    refine Woken.trans ?_ hrest
    have hparent : (if p ∈ q :: ps then heir me (procs p).parent else (procs p).parent) =
        if p ∈ ps then heir me (if p = q then heir me (procs p).parent else (procs p).parent)
        else if p = q then heir me (procs p).parent else (procs p).parent := by
      by_cases hp : p = q <;> by_cases hmem : p ∈ ps <;> simp [hp, hmem, heir_heir]
    rw [hparent]
    exact hround.setParent _

/-- The round of a zombie child wakes up init. -/
theorem passToInit_wakes (hparent : (procs c).parent = some me) (hzombie : (procs c).state = .ZOMBIE)
    (hchan : (procs p).chan = some (.proc initproc))
    (hstate : (procs p).state = .SLEEPING ∨ (procs p).state = .RUNNABLE) :
    (passToInit me procs c p).state = .RUNNABLE := by
  let passed := update procs c { procs c with parent := some initproc }
  have hround : passToInit me procs c = wakeup1 passed (some (.proc initproc)) := by
    rw [passToInit, if_pos hparent]
    exact if_pos (by simp [hzombie])
  have hp : (passed p).state = (procs p).state ∧ (passed p).chan = (procs p).chan := by
    by_cases hpc : p = c
    · subst hpc
      simp [passed]
    · simp [passed, hpc]
  rw [hround]
  cases hstate with
  | inl hsleeping => exact wakeup1_state (hp.1.trans hsleeping) (hp.2.trans hchan)
  | inr hrunnable =>
    have hne : (passed p).state ≠ .SLEEPING := by
      rw [hp.1, hrunnable]
      nofun
    rw [(wakeup1_woken passed _ p).eq_of_ne hne, hp.1, hrunnable]

/-- A zombie child among the slots `ps` makes the loop of `exit` wake up init. -/
theorem foldl_passToInit_wakes {ps : List Slot} (hc : c ∈ ps) (hparent : (procs c).parent = some me)
    (hzombie : (procs c).state = .ZOMBIE) (hchan : (procs p).chan = some (.proc initproc))
    (hstate : (procs p).state = .SLEEPING ∨ (procs p).state = .RUNNABLE) :
    (ps.foldl (passToInit me) procs p).state = .RUNNABLE := by
  induction ps generalizing procs with
  | nil => cases hc
  | cons q ps ih =>
    have hround := passToInit_woken me procs q
    by_cases hq : q = c
    · -- this round wakes up init, and no later round changes that
      subst hq
      have hwoken := passToInit_wakes hparent hzombie hchan hstate
      have hrest := foldl_passToInit_woken me ps (passToInit me procs q) p
      rw [List.foldl_cons, hrest.eq_of_ne (by simp [hwoken])]
      exact hwoken
    have hzombie' := (hround c).eq_of_ne (by simp [hzombie])
    apply ih ((List.mem_cons.mp hc).resolve_left (Ne.symm hq))
    · simp [hzombie', Ne.symm hq, hparent]
    · simp [hzombie', hzombie]
    · simp [(hround p).chan_eq, hchan]
    · cases (hround p).state with
      | inl h => exact h ▸ hstate
      | inr h => exact .inr h.2

/-- The table that the loop of `exit` leaves, before the process becomes a zombie. -/
def abandon (procs : Slot → Proc C) (me : Slot) : Slot → Proc C :=
  (List.finRange NPROC).foldl (passToInit me) (wakeup1 procs ((procs me).parent.map .proc))

theorem exitProcs_eq_update (procs : Slot → Proc C) (me : Slot) :
    exitProcs procs me = update (abandon procs me) me { abandon procs me me with state := .ZOMBIE } := rfl

theorem abandon_woken (procs : Slot → Proc C) (me p : Slot) : Woken (some (.proc initproc))
      { wakeup1 procs ((procs me).parent.map .proc) p with parent := heir me (procs p).parent }
      (abandon procs me p) := by
  have h := foldl_passToInit_woken me (List.finRange NPROC) (wakeup1 procs ((procs me).parent.map .proc)) p
  rwa [if_pos (List.mem_finRange p), (wakeup1_woken procs _ p).parent] at h

theorem abandon_eq (procs : Slot → Proc C) (me p : Slot) : abandon procs me p =
      { procs p with parent := heir me (procs p).parent, state := (abandon procs me p).state } := by
  have h := (abandon_woken procs me p).eq
  rwa [(wakeup1_woken procs ((procs me).parent.map .proc) p).eq] at h

theorem abandon_state (procs : Slot → Proc C) (me p : Slot) : (abandon procs me p).state = (procs p).state ∨
      (procs p).state = .SLEEPING ∧ (abandon procs me p).state = .RUNNABLE := by
  have hloop := (abandon_woken procs me p).state
  cases (wakeup1_woken procs ((procs me).parent.map .proc) p).state with
  | inl h => rwa [h] at hloop
  | inr h => exact .inr ⟨h.1, (hloop.resolve_right fun hsleeping => by simp [h.2] at hsleeping).trans h.2⟩

/-- `exit` passes the children of the process to init, makes it a zombie, and wakes up some sleepers. -/
theorem exitProcs_eq (procs : Slot → Proc C) (me p : Slot) : exitProcs procs me p =
      { procs p with parent := heir me (procs p).parent, state := (exitProcs procs me p).state } := by
  rw [exitProcs_eq_update]
  by_cases hp : p = me
  · subst hp
    rw [update_self]
    exact congrArg (fun e : Proc C => { e with state := .ZOMBIE }) (abandon_eq procs p p)
  · rw [update_of_ne hp]
    exact abandon_eq procs me p

/-- `exit` leaves every other field of the table alone. -/
theorem exitProcs_field {X : Type} (field : Proc C → X)
    (hfield : ∀ (e : Proc C) parent state, field { e with parent := parent, state := state } = field e)
    (procs : Slot → Proc C) (me p : Slot) : field (exitProcs procs me p) = field (procs p) :=
  (congrArg field (exitProcs_eq procs me p)).trans (hfield ..)

theorem exitProcs_self (procs : Slot → Proc C) (me : Slot) : (exitProcs procs me me).state = .ZOMBIE := by
  rw [exitProcs_eq_update, update_self]

theorem exitProcs_state (procs : Slot → Proc C) (hp : p ≠ me) : (exitProcs procs me p).state = (procs p).state ∨
      (procs p).state = .SLEEPING ∧ (exitProcs procs me p).state = .RUNNABLE := by
  rw [exitProcs_eq_update, update_of_ne hp]
  exact abandon_state procs me p

/-- `exit` wakes up the parent. -/
theorem exitProcs_wakes_parent (hp : p ≠ me) (hstate : (procs p).state = .SLEEPING)
    (hchan : (procs p).chan = (procs me).parent.map .proc) : (exitProcs procs me p).state = .RUNNABLE := by
  have hwoken := wakeup1_state hstate hchan
  rw [exitProcs_eq_update, update_of_ne hp, (abandon_woken procs me p).eq_of_ne (by simp [hwoken])]
  exact hwoken

/-- `exit` wakes up init when it leaves a zombie to it. -/
theorem exitProcs_wakes_init (hp : p ≠ me) (hstate : (procs p).state = .SLEEPING)
    (hchan : (procs p).chan = some (.proc initproc)) (hparent : (procs c).parent = some me)
    (hzombie : (procs c).state = .ZOMBIE) : (exitProcs procs me p).state = .RUNNABLE := by
  have hwoken := wakeup1_woken procs ((procs me).parent.map .proc)
  rw [exitProcs_eq_update, update_of_ne hp]
  have hc := (hwoken c).eq_of_ne (by simp [hzombie])
  apply foldl_passToInit_wakes (List.mem_finRange c)
  · rw [hc, hparent]
  · rw [hc, hzombie]
  · rw [(hwoken p).chan_eq, hchan]
  · cases (hwoken p).state with
    | inl h => exact .inl (h.trans hstate)
    | inr h => exact .inr h.2

end Table

namespace State

/-- CPU `k` executes the kernel thread of slot `p` at `point`, with `me` in its variable `proc`. -/
structure At (s : State K C) (k : K) (p me : Slot) (point : Point) : Prop where
  exec : (s.cpu k).exec = .stack p
  proc : (s.cpu k).proc = some me
  thread : s.thread p = point

/-- The steps that leave every CPU where it is, and the lock as it is. -/
inductive Quiet [DecidableEq C] (s : State K C) (act : Action K C) : State K C → Prop
  | skip : Quiet s act s
  | found (k : K) (p me np : Slot) : s.At k p me (.free .run) → s.lock = none → (s.procs np).state = .UNUSED →
      Quiet s act (s.found p np)
  | gotStack (k : K) (p me np : Slot) (a : ℕ) : s.At k p me (.free (.kalloc np)) → s.mem a = none →
      Quiet s act (s.gotStack p np a)
  | noStack (k : K) (p me np : Slot) : s.At k p me (.free (.kalloc np)) → act = .proc k (.kalloc none) →
      Quiet s act (s.noStack p np)
  | gotDir (k : K) (p me np : Slot) (a : ℕ) : s.At k p me (.free (.copyuvm np)) → s.mem a = none →
      Quiet s act (s.gotDir p np a)
  | noDir (k : K) (p me np : Slot) (a : ℕ) : s.At k p me (.free (.copyuvm np)) → (s.procs np).kstack = some a →
      act = .proc k (.kalloc none) →
      Quiet s act ({ s with mem := update s.mem a none }.noDir p np)
  | inherit (k : K) (p me np : Slot) : s.At k p me (.free (.inherit np)) → Quiet s act (s.inherit p me np)
  | launch (k : K) (p me np : Slot) : s.At k p me (.free (.launch np)) → s.lock = none → Quiet s act (s.launch p np)
  | kill (k : K) (pid : Int32) (p : Slot) : s.lock = none → findPid s.procs pid = some p →
      act = .proc k (.kill pid) →
      Quiet s act { s with procs := killProc s.procs p }
  | fault (k : K) (p me : Slot) : s.At k p me (.free .run) → act = .proc k .fault →
      Quiet s act (s.setProc me { s.procs me with killed := true })
  | wakeup (chan : Chan C) : s.lock = none → Quiet s act { s with procs := wakeup1 s.procs (some chan) }

/-- The steps of the thread of slot `p` on CPU `k` that take the lock or are made with it, but for `swtch`. -/
inductive Held [DecidableEq C] (s : State K C) (k : K) (p me : Slot) : State K C → Prop
  | exit : s.At k p me (.free .run) → s.lock = none → me ≠ initproc →
      Held s k p me { s.exit p me with lock := some k }
  | wait : s.At k p me (.free .run) → s.lock = none → Held s k p me { s.goto p .wait with lock := some k }
  | reap (c : Slot) (a b : ℕ) : s.At k p me .wait → s.lock = some k → findZombie s.procs me = some c →
      (s.procs c).kstack = some a → (s.procs c).pgdir = some b →
      Held s k p me
        { { s with mem := update (update s.mem a none) b none }.reap p me c with lock := none }
  | alone : s.At k p me .wait → s.lock = some k → havekids s.procs me = false ∨ (s.procs me).killed = true →
      Held s k p me
        { { s with waits := s.waits ++ [(me, none)] }.goto p (.free .run) with lock := none }
  | waitSleep : s.At k p me .wait → findZombie s.procs me = none →
      Held s k p me (s.sleep p me (.proc me) .wait)
  | sleep (chan : Chan C) : s.At k p me (.free .run) → s.lock = none →
      Held s k p me { s.sleep p me chan .sleep with lock := some k }
  | yield (place : Place) : s.At k p me (.free place) → s.lock = none →
      Held s k p me
        { (s.setProc me { s.procs me with state := .RUNNABLE }).goto p (.swtch (.yield place)) with lock := some k }
  | forkret : s.At k p me (.resumed .forkret) → s.lock = some k →
      Held s k p me { s.goto p (.free .run) with lock := none }
  | yielded (place : Place) : s.At k p me (.resumed (.yield place)) → s.lock = some k →
      Held s k p me { s.goto p (.free place) with lock := none }
  | slept : s.At k p me (.resumed .sleep) → s.lock = some k →
      Held s k p me { s.tidy p me (.free .run) with lock := none }
  | woken : s.At k p me (.resumed .wait) → Held s k p me (s.tidy p me .wait)

/-- The steps of CPU `k` that change what it executes. -/
inductive Switch [DecidableEq K] (s : State K C) (k : K) : State K C → Prop
  | sched (p me : Slot) (r : Resume) : s.At k p me (.swtch r) → s.lock = some k →
      Switch s k
        (((s.setProc me { s.procs me with context := r }).goto p .out).setCpu k { s.cpu k with exec := .leave })
  | start : (s.cpu k).exec = .idle → s.lock = none →
      Switch s k { s.setCpu k { s.cpu k with exec := .scan } with lock := some k }
  | pick (p : Slot) : (s.cpu k).exec = .scan → (s.procs p).state = .RUNNABLE →
      Switch s k ((s.setProc p { s.procs p with state := .RUNNING }).setCpu k
        { proc := some p, cr3 := some p, exec := .enter })
  | enter (p : Slot) : (s.cpu k).exec = .enter → (s.cpu k).proc = some p →
      Switch s k ((s.goto p (.resumed (s.procs p).context)).setCpu k { s.cpu k with exec := .stack p })
  | leave : (s.cpu k).exec = .leave → Switch s k (s.setCpu k { proc := none, cr3 := none, exec := .scan })
  | done : (s.cpu k).exec = .scan → s.lock = some k →
      Switch s k { s.setCpu k { s.cpu k with exec := .idle } with lock := none }

/-- All transitions. -/
inductive Trans [DecidableEq K] [DecidableEq C] (s : State K C) (act : Action K C) : State K C → Prop
  | quiet {s' : State K C} : Quiet s act s' → Trans s act s'
  | held {s' : State K C} (k : K) (p me : Slot) : Held s k p me s' → Trans s act s'
  | switch {s' : State K C} (k : K) : Switch s k s' → Trans s act s'

variable {s s' : State K C} {act : Action K C} {k : K} {p me : Slot} {v : Option ℕ}

theorem kfree_ok (h : s.kfree v = .ok s') : ∃ a, v = some a ∧ s' = { s with mem := update s.mem a none } := by
  unfold kfree at h
  split at h
  · next a => exact ⟨a, rfl, (Except.ok.inj h).symm⟩
  · cases h

theorem freevm_ok (h : s.freevm v = .ok s') : ∃ a, v = some a ∧ s' = { s with mem := update s.mem a none } := by
  unfold freevm at h
  split at h
  · next a => exact ⟨a, rfl, (Except.ok.inj h).symm⟩
  · cases h

variable [DecidableEq K]

theorem acquire_ok {next : State K C → Except Panic (State K C)} (h : s.acquire k next = some (.ok s')) :
    s.lock = none ∧ next { s with lock := some k } = .ok s' := by
  unfold acquire at h
  split at h
  · cases h
  · split_ifs at h with hlock
    exact ⟨hlock, Option.some.inj h⟩

theorem release_ok (h : s.release k = .ok s') : s.lock = some k ∧ s' = { s with lock := none } := by
  unfold release at h
  split_ifs at h with hlock
  exact ⟨hlock, (Except.ok.inj h).symm⟩

/-- A critical section that gives the lock back leaves it as it was. -/
theorem locked_ok {f : State K C → State K C} (hf : ∀ t lock, f { t with lock := lock } = { f t with lock := lock })
    (h : s.acquire k (fun s => (f s).release k) = some (.ok s')) : s.lock = none ∧ s' = f s := by
  obtain ⟨hlock, h⟩ := acquire_ok h
  obtain ⟨-, rfl⟩ := release_ok h
  refine ⟨hlock, ?_⟩
  rw [hf]
  calc ({ f s with lock := none } : State K C) = { f s with lock := s.lock } := by rw [hlock]
    _ = f s := (hf s s.lock).symm

theorem sched_ok {r : Resume} (hat : s.At k p me (.swtch r)) (h : s.sched k p me r = .ok s') : s.Switch k s' := by
  unfold sched at h
  split at h
  · cases h
  next hlock =>
  split at h
  · cases h
  · cases h
    exact .sched p me r hat (not_not.mp hlock)

theorem schedule_ok {choice : Option Slot} (h : s.schedule k (s.cpu k).exec choice = some (.ok s')) :
    s.Switch k s' := by
  unfold schedule at h
  split at h
  · next hexec =>
    obtain ⟨hlock, h⟩ := acquire_ok h
    cases h
    exact .start hexec hlock
  · next q hexec =>
    split at h
    · next hrunnable =>
      split at h
      · cases h
      · cases h
        exact .pick q hexec hrunnable
    · cases h
  · next hexec =>
    obtain ⟨q, hq, h⟩ := Option.map_eq_some_iff.mp h
    cases h
    exact .enter q hexec hq
  · next hexec =>
    cases h
    exact .leave hexec
  · next hexec =>
    obtain ⟨hlock, rfl⟩ := release_ok (Option.some.inj h)
    exact .done hexec hlock
  · cases h

variable [DecidableEq C]

theorem waitLoop_ok (hat : s.At k p me .wait) (h : s.waitLoop k p me = .ok s') : s.Held k p me s' := by
  unfold waitLoop at h
  split at h
  · next c hc =>
    obtain ⟨t, ht, h⟩ := bind_eq_ok.mp h
    obtain ⟨a, ha, rfl⟩ := kfree_ok ht
    obtain ⟨u, hu, h⟩ := bind_eq_ok.mp h
    obtain ⟨b, hb, rfl⟩ := freevm_ok hu
    obtain ⟨hlock, rfl⟩ := release_ok h
    exact .reap c a b hat hlock hc ha hb
  next hc =>
  split at h
  · next halone =>
    obtain ⟨hlock, rfl⟩ := release_ok h
    exact .alone hat hlock halone
  · cases h
    exact .waitSleep hat hc

theorem allocproc_ok (hat : s.At k p me (.free .run))
    (h : s.acquire k (fun s => (s.allocproc p).release k) = some (.ok s')) : s.Quiet act s' := by
  obtain ⟨hlock, rfl⟩ := locked_ok (f := fun s => s.allocproc p)
    (fun t lock => by simp only [allocproc]; split <;> rfl) h
  simp only [allocproc]
  split
  · exact .skip
  · next np hnp =>
    have hunused := List.find?_some hnp
    exact .found k p me np hat hlock (of_decide_eq_true hunused)

theorem kill_ok {pid : Int32}
    (h : s.acquire k (fun s => { s with procs := (kill s.procs pid).2 }.release k) = some (.ok s')) :
    s.Quiet (.proc k (.kill pid)) s' := by
  obtain ⟨hlock, rfl⟩ := locked_ok (f := fun s => { s with procs := (kill s.procs pid).2 }) (fun t lock => rfl) h
  simp only [kill]
  split
  · next q hq => exact .kill k pid q hlock hq rfl
  · exact .skip

theorem act_ok {point : Point} {act : Act C} (hat : s.At k p me point)
    (h : s.act k p me point act = some (.ok s')) : s.Trans (.proc k act) s' := by
  unfold State.act at h
  split at h
  · exact .quiet (allocproc_ok hat h)
  · next np a =>
    simp only [enabled_ok_iff] at h
    obtain ⟨hfree, rfl⟩ := h
    exact .quiet (.gotStack k p me np a hat hfree)
  · next np =>
    cases h
    exact .quiet (.noStack k p me np hat rfl)
  · next np a =>
    simp only [enabled_ok_iff] at h
    obtain ⟨hfree, rfl⟩ := h
    exact .quiet (.gotDir k p me np a hat hfree)
  · next np =>
    obtain ⟨t, ht, h⟩ := bind_eq_ok.mp (Option.some.inj h)
    obtain ⟨a, ha, rfl⟩ := kfree_ok ht
    cases h
    exact .quiet (.noDir k p me np a hat ha rfl)
  · next np =>
    cases h
    exact .quiet (.inherit k p me np hat)
  · next np =>
    obtain ⟨hlock, rfl⟩ := locked_ok (f := fun s => s.launch p np) (fun _ _ => rfl) h
    exact .quiet (.launch k p me np hat hlock)
  · split at h
    · cases h
    · next hme =>
      obtain ⟨hlock, h⟩ := acquire_ok h
      cases h
      exact .held k p me (.exit hat hlock hme)
  · obtain ⟨hlock, h⟩ := acquire_ok h
    cases h
    exact .held k p me (.wait hat hlock)
  · exact .held k p me (waitLoop_ok hat (Option.some.inj h))
  · next chan =>
    obtain ⟨hlock, h⟩ := acquire_ok h
    cases h
    exact .held k p me (.sleep chan hat hlock)
  · exact .quiet (kill_ok h)
  · cases h
    exact .quiet (.fault k p me hat rfl)
  · next place =>
    obtain ⟨hlock, h⟩ := acquire_ok h
    cases h
    exact .held k p me (.yield place hat hlock)
  · exact .switch k (sched_ok hat (Option.some.inj h))
  · obtain ⟨hlock, rfl⟩ := release_ok (Option.some.inj h)
    exact .held k p me (.forkret hat hlock)
  · next place =>
    obtain ⟨hlock, rfl⟩ := release_ok (Option.some.inj h)
    exact .held k p me (.yielded place hat hlock)
  · obtain ⟨hlock, rfl⟩ := release_ok (Option.some.inj h)
    exact .held k p me (.slept hat hlock)
  · cases h
    exact .held k p me (.woken hat)
  · cases h
  · cases h

/-- Every step that succeeds is a transition. -/
theorem trans_of_step (h : step s act = some (.ok s')) : s.Trans act s' := by
  cases act with
  | proc k act =>
    simp only [step] at h
    split at h
    · next hexec hproc => exact act_ok ⟨hexec, hproc, rfl⟩ h
    · cases h
  | scheduler k choice => exact .switch k (schedule_ok h)
  | wakeup k chan =>
    obtain ⟨hlock, rfl⟩ := locked_ok (f := fun s => { s with procs := wakeup1 s.procs (some chan) }) (fun _ _ => rfl) h
    exact .quiet (.wakeup chan hlock)

end State

end Xv6.Ptable
