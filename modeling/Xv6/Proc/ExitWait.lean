import Xv6.Proc.Lineage

/-!
# Exiting and waiting

Every exit is collected once, by the current parent, and no wakeup of a parent is lost: a process goes to sleep in
`wait` only when it has no zombie child, with the lock, and `exit` wakes up whoever gets a zombie child in its critical
section.
-/

namespace Xv6.Ptable

open Lib
open Function (update update_self update_of_ne)

variable {K C : Type}

attribute [local simp] ProcState.status State.setProc State.goto

/-- A slot that holds a process, which may have exited. -/
def ProcState.IsProcess : ProcState → Prop
  | .SLEEPING | .RUNNABLE | .RUNNING | .ZOMBIE => True
  | .UNUSED | .EMBRYO => False

/-- The thread is at a point where it can be asleep inside `wait`. -/
def Point.CanSleep (point : Point) : Prop := point = .swtch .wait ∨ point = .out

namespace State

variable {s s' : State K C} {act : Action K C} {k : K} {p me : Slot}

/-- The process in slot `p` is asleep inside `wait`. -/
def AsleepInWait (s : State K C) (p : Slot) : Prop :=
  (s.procs p).state = .SLEEPING ∧
    (s.thread p = .swtch .wait ∨ s.thread p = .out ∧ (s.procs p).context = .wait)

/-- Who is asleep inside `wait` will be woken up by its children, and has no zombie among them. -/
def Waiting (s : State K C) : Prop :=
  ∀ p, s.AsleepInWait p →
    (s.procs p).chan = some (.proc p) ∧ ∀ c, (s.procs c).parent = some p → (s.procs c).state ≠ .ZOMBIE

/-- A change of a slot that puts nobody to sleep, and gives nobody a zombie child. -/
structure Calm (e e' : Proc C) : Prop where
  sleeping : e'.state = .SLEEPING → e.state = .SLEEPING
  chan : e'.chan = e.chan
  context : e'.context = .wait → e.context = .wait
  zombie : e'.state = .ZOMBIE → e.state = .ZOMBIE ∧ e'.parent = e.parent

theorem Calm.refl (e : Proc C) : Calm e e := ⟨id, rfl, id, fun h => ⟨h, rfl⟩⟩

variable {procs : Slot → Proc C} {c : Slot}

theorem Calm.update {e : Proc C} (h : Calm (procs c) e) (q : Slot) : Calm (procs q) (update procs c e q) := by
  by_cases hq : q = c
  · subst hq
    rwa [update_self]
  · rw [update_of_ne hq]
    exact .refl _

/-- A slot whose state changes to one that neither sleeps nor is a zombie. -/
theorem Calm.of_state {e e' : Proc C} (hsleeping : e'.state ≠ .SLEEPING) (hzombie : e'.state ≠ .ZOMBIE)
    (hchan : e'.chan = e.chan) (hcontext : e'.context = .wait → e.context = .wait) : Calm e e' :=
  ⟨fun h => absurd h hsleeping, hchan, hcontext, fun h => absurd h hzombie⟩

/-- A calm change of every slot whose thread can be asleep, where these threads stay where they are. -/
theorem Waiting.calm (h : s.Waiting)
    (hcalm : ∀ q, Calm (s.procs q) (s'.procs q) ∨ ¬(s'.thread q).CanSleep ∧ (s'.procs q).state ≠ .ZOMBIE)
    (hthread : ∀ q, (s'.thread q).CanSleep → s'.thread q = s.thread q) : s'.Waiting := by
  intro q hq
  have hcan : (s'.thread q).CanSleep := hq.2.imp_right fun hout => hout.1
  have hcalm' := (hcalm q).resolve_right fun hother => hother.1 hcan
  have hbefore : s.AsleepInWait q := by
    refine ⟨hcalm'.sleeping hq.1, ?_⟩
    rw [← hthread q hcan]
    exact hq.2.imp_right fun hout => ⟨hout.1, hcalm'.context hout.2⟩
  refine ⟨hcalm'.chan.trans (h q hbefore).1, fun c hc hzombie => ?_⟩
  obtain ⟨hz, hparent⟩ := ((hcalm c).resolve_right fun hother => hother.2 hzombie).zombie hzombie
  exact (h q hbefore).2 c (hparent.symm.trans hc) hz

section Quiet

variable [DecidableEq C]

theorem wakeup1_calm (procs : Slot → Proc C) (chan : Option (Chan C)) (q : Slot) :
    Calm (procs q) (wakeup1 procs chan q) := by
  generalize hwoken : wakeup1 procs chan q = e
  have h := wakeup1_woken procs chan q
  rw [hwoken] at h
  cases h with
  | same => exact .refl _
  | woken hstate hchan => exact .of_state nofun nofun rfl id

theorem Quiet.calm (hq : s.Quiet act s') (hn : s.Nursery) (q : Slot) : Calm (s.procs q) (s'.procs q) := by
  cases hq with
  | skip => exact .refl _
  | found k p me np | noStack k p me np | noDir k p me np a | launch k p me np =>
    refine Calm.update ?_ q
    exact .of_state nofun nofun rfl id
  | gotStack k p me np a =>
    refine Calm.update ?_ q
    exact ⟨id, rfl, nofun, fun h => ⟨h, rfl⟩⟩
  | gotDir k p me np a | fault k p me =>
    refine Calm.update ?_ q
    exact ⟨id, rfl, id, fun h => ⟨h, rfl⟩⟩
  | inherit k p me np hat =>
    have hembryo := hn.of_free hat.thread rfl
    refine Calm.update ?_ q
    exact ⟨id, rfl, id, fun h => by cases h.symm.trans hembryo⟩
  | kill k pid p =>
    refine Calm.update ?_ q
    by_cases hsleeping : (s.procs p).state = .SLEEPING
    · simp only [hsleeping, if_true]
      exact .of_state nofun nofun rfl id
    · simp only [hsleeping, if_false]
      exact ⟨id, rfl, id, fun h => ⟨h, rfl⟩⟩
  | wakeup chan => exact wakeup1_calm s.procs (some chan) q

theorem Waiting.quiet (h : s.Waiting) (hn : s.Nursery) (hq : s.Quiet act s') : s'.Waiting := by
  refine h.calm (fun q => .inl (hq.calm hn q)) fun q hpoint => ?_
  cases hq.thread q with
  | inl hsame => exact hsame
  | inr hmoved =>
    obtain ⟨a, b, -, hb⟩ := hmoved
    simp [hb, Point.CanSleep] at hpoint

end Quiet

section Held

/-- The thread of slot `p` moves, not into the sleep of `wait`, and the other slots change calmly. -/
theorem Waiting.move {point : Point} (h : s.Waiting) (hcalm : ∀ q ≠ p, Calm (s.procs q) (s'.procs q))
    (hself : (s'.procs p).state ≠ .ZOMBIE) (hthread : s'.thread = update s.thread p point)
    (hpoint : ¬point.CanSleep) : s'.Waiting := by
  have hp : ¬(s'.thread p).CanSleep := by rwa [hthread, update_self]
  refine h.calm (fun q => ?_) fun q hq => ?_
  · by_cases hqp : q = p
    · subst hqp
      exact .inr ⟨hp, hself⟩
    · exact .inl (hcalm q hqp)
  · have hqp : q ≠ p := by
      rintro rfl
      exact hp hq
    rw [hthread, update_of_ne hqp]

theorem calm_of_ne {procs : Slot → Proc C} {e : Proc C} (q : Slot) (hq : q ≠ p) :
    Calm (procs q) (update procs p e q) := by
  rw [update_of_ne hq]
  exact .refl _

/-- A process goes to sleep in `wait` when it has no zombie child. -/
theorem Waiting.waitSleep (h : s.Waiting) (hfind : findZombie s.procs me = none) :
    (s.sleep me me (.proc me) .wait).Waiting := by
  intro q hq
  have hzombie : ∀ c, ((s.sleep me me (.proc me) .wait).procs c).state = .ZOMBIE →
      (s.sleep me me (.proc me) .wait).procs c = s.procs c := by
    intro c hc
    refine update_of_ne ?_ ..
    rintro rfl
    simp [sleep] at hc
  by_cases hqme : q = me
  · subst hqme
    refine ⟨by simp [sleep], fun c hc hz => ?_⟩
    rw [hzombie c hz] at hc hz
    exact findZombie_none hfind c hc hz
  have hprocs : (s.sleep me me (.proc me) .wait).procs q = s.procs q := update_of_ne hqme ..
  have hthread : (s.sleep me me (.proc me) .wait).thread q = s.thread q := update_of_ne hqme ..
  have hbefore : s.AsleepInWait q := by rwa [AsleepInWait, hprocs, hthread] at hq
  refine ⟨by rw [hprocs]; exact (h q hbefore).1, fun c hc hz => ?_⟩
  rw [hzombie c hz] at hc hz
  exact (h q hbefore).2 c hc hz

variable [DecidableEq C]

/-- The parent of a process that exits is woken up, and so is init if it gets a zombie. -/
theorem Waiting.exit (h : s.Waiting) (ht : s.family.Ties) : Waiting { s.exit me me with lock := some k } := by
  intro q hq
  have hstate : (exitProcs s.procs me q).state = .SLEEPING := hq.1
  have hqme : q ≠ me := by
    rintro rfl
    cases (exitProcs_self s.procs q).symm.trans hstate
  have hsleeping : (s.procs q).state = .SLEEPING := by
    rcases exitProcs_state s.procs hqme with hsame | hwoken
    · exact hsame.symm.trans hstate
    · exact hwoken.1
  have hthread : (s.exit me me).thread q = s.thread q := update_of_ne hqme ..
  have hcontext := exitProcs_field Proc.context (fun _ _ _ => rfl) s.procs me q
  have hbefore : s.AsleepInWait q := by
    refine ⟨hsleeping, ?_⟩
    cases hq.2 with
    | inl hswtch => exact .inl (hthread.symm.trans hswtch)
    | inr hout => exact .inr ⟨hthread.symm.trans hout.1, hcontext.symm.trans hout.2⟩
  obtain ⟨hchan, hchildren⟩ := h q hbefore
  refine ⟨(exitProcs_field Proc.chan (fun _ _ _ => rfl) s.procs me q).trans hchan, fun c hc hzombie => ?_⟩
  have hc : heir me (s.procs c).parent = some q := (congrArg Proc.parent (exitProcs_eq s.procs me c)).symm.trans hc
  have hwoken : (exitProcs s.procs me q).state = .RUNNABLE := by
    by_cases hcme : c = me
    · -- the new zombie: its parent is woken up first
      subst hcme
      have hself : (s.procs c).parent ≠ some c := ht.parent_ne c
      have hparent : (s.procs c).parent = some q := by
        rwa [heir, if_neg hself] at hc
      exact exitProcs_wakes_parent hqme hsleeping (by rw [hchan, hparent]; rfl)
    have hz : (s.procs c).state = .ZOMBIE := by
      rcases exitProcs_state s.procs hcme with hsame | hwoken
      · exact hsame.symm.trans hzombie
      · cases hwoken.2.symm.trans hzombie
    by_cases hparent : (s.procs c).parent = some me
    · -- an old zombie that is passed to init
      obtain rfl : initproc = q := by
        rw [heir, if_pos hparent] at hc
        exact Option.some.inj hc
      exact exitProcs_wakes_init hqme hsleeping hchan hparent hz
    · rw [heir, if_neg hparent] at hc
      exact absurd hz (hchildren c hc)
  cases hstate.symm.trans hwoken

theorem Waiting.held (h : s.Waiting) (hr : s.Reachable) (hheld : s.Held k p me s') : s'.Waiting := by
  have hrunning := hheld.running hr.cpus
  cases hheld with
  | exit hat hlock hinit =>
    obtain rfl := hr.cpus.proc_eq hat
    exact h.exit hr.ties
  | wait hat | alone hat | forkret hat | yielded place hat =>
    exact h.move (fun q _ => .refl _) (by simp [hrunning]) rfl nofun
  | reap c a b hat hlock hfind =>
    have hc := ne_of_zombie hrunning hfind
    refine h.move (fun q _ => ?_) ?_ rfl nofun
    · refine Calm.update ?_ q
      exact .of_state nofun nofun rfl id
    · simp [reap, hc, hrunning]
  | waitSleep hat hfind =>
    obtain rfl := hr.cpus.proc_eq hat
    exact h.waitSleep hfind
  | sleep chan hat =>
    obtain rfl := hr.cpus.proc_eq hat
    exact h.move calm_of_ne (by simp [sleep]) rfl (by simp [Point.CanSleep])
  | yield place hat =>
    obtain rfl := hr.cpus.proc_eq hat
    exact h.move calm_of_ne (by simp) rfl (by simp [Point.CanSleep])
  | slept hat | woken hat =>
    obtain rfl := hr.cpus.proc_eq hat
    exact h.move calm_of_ne (by simp [tidy, hrunning]) rfl nofun

end Held

section Switch

variable [DecidableEq K]

/-- Saving the context of a process that is asleep changes nothing. -/
theorem Waiting.sched {r : Resume} (h : s.Waiting) (hthread : s.thread me = .swtch r) :
    (((s.setProc me { s.procs me with context := r }).goto me .out).setCpu k
      { s.cpu k with exec := .leave }).Waiting := by
  let t := ((s.setProc me { s.procs me with context := r }).goto me .out).setCpu k { s.cpu k with exec := .leave }
  have hfields (q : Slot) : (t.procs q).state = (s.procs q).state ∧ (t.procs q).chan = (s.procs q).chan ∧
      (t.procs q).parent = (s.procs q).parent :=
    ⟨congrFun (field_keep Proc.state (by rfl)) q, congrFun (field_keep Proc.chan (by rfl)) q,
      congrFun (field_keep Proc.parent (by rfl)) q⟩
  intro q hq
  have hbefore : s.AsleepInWait q := by
    refine ⟨(hfields q).1.symm.trans hq.1, ?_⟩
    by_cases hqme : q = me
    · subst hqme
      simpa [t, setCpu, hthread] using hq.2
    · simpa [t, setCpu, hqme] using hq.2
  refine ⟨(hfields q).2.1.trans (h q hbefore).1, fun c hc hz => ?_⟩
  exact (h q hbefore).2 c ((hfields c).2.2.symm.trans hc) ((hfields c).1.symm.trans hz)

theorem Waiting.switch (h : s.Waiting) (hc : s.Cpus) (hswitch : s.Switch k s') : s'.Waiting := by
  cases hswitch with
  | sched p me r hat =>
    obtain rfl := hc.proc_eq hat
    exact h.sched hat.thread
  | start => exact h
  | pick p hexec hrunnable =>
    refine h.calm (fun q => .inl ?_) fun q _ => rfl
    refine Calm.update ?_ q
    exact .of_state nofun nofun rfl id
  | enter p hexec hproc =>
    refine h.calm (fun q => .inl (.refl _)) fun q hq => ?_
    refine update_of_ne ?_ ..
    rintro rfl
    simp [setCpu, Point.CanSleep] at hq
  | leave => exact h
  | done => exact h

end Switch

theorem waiting_boot : (boot : State K C).Waiting := by
  intro p hp
  have hstate := hp.1
  simp only [boot] at hstate
  split at hstate <;> cases hstate

theorem havekids_eq_false (h : havekids procs me = false) (c : Slot) : (procs c).parent ≠ some me := by
  have hall := List.any_eq_false.mp h c (List.mem_finRange c)
  simpa using hall

theorem status_of_isProcess (h : (s.procs p).state.IsProcess) :
    s.family.status p = .live ∨ s.family.status p = .zombie := by
  simp only [family]
  cases hstate : (s.procs p).state with
  | UNUSED | EMBRYO => exact (hstate ▸ h).elim
  | SLEEPING | RUNNABLE | RUNNING => exact .inl rfl
  | ZOMBIE => exact .inr rfl

/-- The step from `s` to `s'` returns the zombie in slot `c` from `wait`: to its parent, which forked it or got it when
the one that did exited, and with its kernel stack and page directory, which are its own, freed. -/
def Collected (s s' : State K C) (c : Slot) : Prop :=
  ∃ me a b, (s.procs c).parent = some me ∧ (s.life me = s.origin c ∨ me = initproc ∧ s.origin c ∈ s.exited) ∧
    (s'.procs c).state = .UNUSED ∧ s'.waits = s.waits ++ [(me, some (s.life c))] ∧
    (s.procs c).kstack = some a ∧ (s.procs c).pgdir = some b ∧ s.mem a = some (.stack c) ∧ s.mem b = some (.dir c) ∧
    s'.mem a = none ∧ s'.mem b = none

/-- A life that has exited has been returned by `wait`, or is that of a zombie, but not both. -/
theorem Reachable.exited_iff (h : s.Reachable) (l : ℕ) : l ∈ s.exited ↔
      (l ∈ s.waits.filterMap Prod.snd ∧ ¬∃ c, (s.procs c).state = .ZOMBIE ∧ s.life c = l) ∨
        (l ∉ s.waits.filterMap Prod.snd ∧ ∃ c, (s.procs c).state = .ZOMBIE ∧ s.life c = l) := by
  have hzombie (c : Slot) (hc : (s.procs c).state = .ZOMBIE) : s.family.status c = .zombie := by
    simp [family, hc]
  constructor
  · intro hl
    by_cases hreturned : l ∈ s.waits.filterMap Prod.snd
    · refine .inl ⟨hreturned, ?_⟩
      rintro ⟨c, hc, rfl⟩
      exact (h.accounts.uncollected c (hzombie c hc)).2 hreturned
    · obtain ⟨c, hc, hlife⟩ := (h.accounts.accounted l hl).resolve_left hreturned
      exact .inr ⟨hreturned, c, ProcState.eq_zombie hc, hlife⟩
  · intro hor
    cases hor with
    | inl hreturned => exact h.accounts.returned_exited l hreturned.1
    | inr hz =>
      obtain ⟨-, c, hc, rfl⟩ := hz
      exact (h.accounts.uncollected c (hzombie c hc)).1

variable [DecidableEq K] [DecidableEq C]

theorem waiting {trace : List (Action K C)} (h : Run step boot trace s) : s.Waiting := by
  refine Run.invariant (P := fun _ (t : State K C) => t.Waiting) waiting_boot ?_ h
  intro trace a t u hrun ht hstep
  have hr := reachable hrun
  cases trans_of_step hstep with
  | quiet hq => exact ht.quiet (nursery_of_ties hr.ties) hq
  | held k p me hheld => exact ht.held hr hheld
  | switch k hswitch => exact ht.switch hr.cpus hswitch

/-- `wait` returns -1 only to a process without children, or that has been killed. -/
theorem Trans.alone (htrans : s.Trans act s') (hwaits : s'.waits = s.waits ++ [(me, none)]) :
    (∀ c, (s.procs c).parent ≠ some me) ∨ (s.procs me).killed = true := by
  have hkeep : s.waits ≠ s.waits ++ [(me, none)] := by simp
  cases htrans with
  | quiet hq => cases hq <;> exact absurd hwaits hkeep
  | held k p me' hheld =>
    cases hheld with
    | reap c =>
      have hlast := List.append_cancel_left hwaits
      simp at hlast
    | alone hat hlock hor =>
      have hlast := List.append_cancel_left hwaits
      obtain rfl : me' = me := by simpa using hlast
      exact hor.imp_left havekids_eq_false
    | _ => exact absurd hwaits hkeep
  | switch k hswitch => cases hswitch <;> exact absurd hwaits hkeep

/-- A zombie that goes is collected. -/
theorem Reachable.collected (h : s.Reachable) (htrans : s.Trans act s') (hzombie : (s.procs c).state = .ZOMBIE)
    (hgone : (s'.procs c).state ≠ .ZOMBIE) : s.Collected s' c := by
  have hstatus : s.family.status c = .zombie := by simp [family, hzombie]
  have hgone' : s'.family.status c ≠ .zombie := fun heq => hgone (ProcState.eq_zombie heq)
  cases htrans.refines h.cpus h.ties with
  | inl hsame => exact absurd (hsame ▸ hstatus) hgone'
  | inr hstep =>
    obtain ⟨me, a, b, hparent, hunused, hrest⟩ := hstep.collects h.ties h.pages hstatus hgone'
    exact ⟨me, a, b, hparent, h.accounts.origin c me hparent, ProcState.eq_unused hunused, hrest⟩

/-- The kernel stack and the page directory of a process are freed only when it is collected. -/
theorem Reachable.frees (h : s.Reachable) (htrans : s.Trans act s') {page : ℕ} (hprocess : (s.procs c).state.IsProcess)
    (hpage : (s.procs c).kstack = some page ∨ (s.procs c).pgdir = some page) (hfreed : s'.mem page = none) :
    (s.procs c).state = .ZOMBIE ∧ (s'.procs c).state = .UNUSED := by
  have hstatus := status_of_isProcess hprocess
  cases htrans.refines h.cpus h.ties with
  | inl hsame =>
    -- the page of a process is not free
    have hmem : s.family.mem page = none := hsame ▸ hfreed
    cases hpage with
    | inl hstack => cases ((h.pages.stack c (hstatus.imp_right .inl)).mem_eq hstack).symm.trans hmem
    | inr hdir => cases ((h.pages.dir c (hstatus.imp_right .inl)).mem_eq hdir).symm.trans hmem
  | inr hstep =>
    obtain ⟨hzombie, hunused⟩ := hstep.frees h.ties h.pages hstatus hpage hfreed
    exact ⟨ProcState.eq_zombie hzombie, ProcState.eq_unused hunused⟩

/-- In every reachable state every process but init has a parent that is not `UNUSED` or a zombie; when the lock is
free nobody is asleep inside `wait` with a zombie child; every life that has exited has been returned by `wait` once,
or is that of a zombie. A step that takes a zombie out of the table collects it; the pages of a process are freed in no
other step; and `wait` returns -1 only to a process without children, or that has been killed. -/
theorem exit_wait_accounting {trace : List (Action K C)} (h : Run step boot trace s) :
    (∀ p ≠ initproc, (s.procs p).state.IsProcess →
        ∃ q, (s.procs p).parent = some q ∧ (s.procs q).state ≠ .UNUSED ∧ (s.procs q).state ≠ .ZOMBIE) ∧
      (s.lock = none → ∀ p, s.AsleepInWait p → ∀ c, (s.procs c).parent = some p → (s.procs c).state ≠ .ZOMBIE) ∧
      (s.exited.Nodup ∧ (s.waits.filterMap Prod.snd).Nodup ∧
        ∀ l, l ∈ s.exited ↔
          (l ∈ s.waits.filterMap Prod.snd ∧ ¬∃ c, (s.procs c).state = .ZOMBIE ∧ s.life c = l) ∨
            (l ∉ s.waits.filterMap Prod.snd ∧ ∃ c, (s.procs c).state = .ZOMBIE ∧ s.life c = l)) ∧
      ∀ a s', step s a = some (.ok s') →
        (∀ c, (s.procs c).state = .ZOMBIE → (s'.procs c).state ≠ .ZOMBIE → s.Collected s' c) ∧
          (∀ c page, (s.procs c).state.IsProcess →
            ((s.procs c).kstack = some page ∨ (s.procs c).pgdir = some page) → s'.mem page = none →
              (s.procs c).state = .ZOMBIE ∧ (s'.procs c).state = .UNUSED) ∧
          ∀ me, s'.waits = s.waits ++ [(me, none)] →
            (∀ c, (s.procs c).parent ≠ some me) ∨ (s.procs me).killed = true := by
  have hr := reachable h
  refine ⟨?_, fun _ p hp => (waiting h p hp).2, ⟨hr.accounts.exited_nodup, hr.accounts.returned_nodup, ?_⟩, ?_⟩
  · intro p hinit hp
    obtain ⟨q, hq⟩ := Option.ne_none_iff_exists'.mp (hr.ties.has_parent p hinit (status_of_isProcess hp))
    have hlive := hr.ties.parent_live p q hq
    refine ⟨q, hq, ?_, ?_⟩
    · intro hunused
      simp [family, hunused] at hlive
    · intro hzombie
      simp [family, hzombie] at hlive
  · exact hr.exited_iff
  · intro a s' hstep
    have htrans := trans_of_step hstep
    exact ⟨fun c => hr.collected htrans, fun c page => hr.frees htrans, fun me => htrans.alone⟩

/-- Init forks and waits, the child exits, and init collects it: its life, the second one, is not that of a zombie. -/
theorem exit_wait_accounting_child :
    ∃ trace s, Run step (boot : State Bool Unit) trace s ∧ s.exited = [1] ∧ s.waits = [(0, some 1)] ∧
      ¬∃ c, (s.procs c).state = .ZOMBIE ∧ s.life c = 1 := by
  obtain ⟨s, hrun, hcheck⟩ := run_of_check step (boot : State Bool Unit)
    [.scheduler false none, .scheduler false (some 0), .scheduler false none, .proc false .next,
      .proc false .fork, .proc false (.kalloc (some 2)), .proc false (.kalloc (some 3)), .proc false .next,
      .proc false .next, .scheduler true none, .scheduler true (some 1), .scheduler true none, .proc true .next,
      .proc false .wait, .proc false .next, .proc false .next, .scheduler false none, .scheduler false none,
      .proc true .exit, .proc true .next, .scheduler true none, .scheduler true (some 0), .scheduler true none,
      .proc true .next, .proc true .next]
    (fun s => s.exited = [1] ∧ s.waits = [(0, some 1)]) (by decide +kernel)
  obtain ⟨hexited, hwaits⟩ := of_decide_eq_true hcheck
  refine ⟨_, s, hrun, hexited, hwaits, ?_⟩
  have hbooks := (exit_wait_accounting hrun).2.2.1.2.2 1
  simp only [hexited, hwaits, List.mem_singleton, true_iff] at hbooks
  simpa using hbooks

end State

end Xv6.Ptable
