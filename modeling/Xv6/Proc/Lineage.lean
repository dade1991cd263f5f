import Xv6.Proc.Cpus

/-!
# The process table refines the family tree

The tree of a state forgets CPUs, the lock and sleeping. What a CPU does to its own thread and what the scheduler does
leaves the tree alone; every other step is one of the tree. So the properties of the tree hold of the process table, and
the slots that are being set up are `EMBRYO`, which is what the CPUs rely on.
-/

namespace Xv6.Ptable

open Lib
open Function (update update_self update_of_ne update_eq_self)

variable {K C : Type}

attribute [local simp] State.place State.goto Resume.place State.setProc State.setCpu

/-- What the family tree distinguishes. -/
def ProcState.status : ProcState → Status
  | .UNUSED => .unused
  | .EMBRYO => .embryo
  | .SLEEPING | .RUNNABLE | .RUNNING => .live
  | .ZOMBIE => .zombie

theorem ProcState.eq_embryo {st : ProcState} (h : st.status = .embryo) : st = .EMBRYO := by
  cases st <;> simp_all [ProcState.status]

theorem ProcState.eq_unused {st : ProcState} (h : st.status = .unused) : st = .UNUSED := by
  cases st <;> simp_all [ProcState.status]

theorem ProcState.eq_zombie {st : ProcState} (h : st.status = .zombie) : st = .ZOMBIE := by
  cases st <;> simp_all [ProcState.status]

theorem Woken.status {chan : Option (Chan C)} {e e' : Proc C} (h : Woken chan e e') :
    e'.state.status = e.state.status := by
  cases h with
  | same => rfl
  | woken hstate => rw [hstate]; rfl

theorem exitProcs_status [DecidableEq C] {procs : Slot → Proc C} {me p : Slot} (hp : p ≠ me) :
    (exitProcs procs me p).state.status = (procs p).state.status := by
  rcases exitProcs_state procs hp with hsame | hwoken
  · rw [hsame]
  · rw [hwoken.1, hwoken.2]; rfl

theorem Place.eq_run {place : Place} (h : place.target = none) : place = .run := by
  cases place <;> first | rfl | cases h

namespace State

variable {s s' : State K C} {act : Action K C} {k k' : K} {p me : Slot}

section Place

theorem place_congr {q : Slot} (hthread : s'.thread q = s.thread q)
    (hcontext : (s'.procs q).context = (s.procs q).context) : s'.place q = s.place q := by
  rw [place, place, hthread, hcontext]

/-- An update of the process table and a move of one thread change no other place. -/
theorem place_of_ne {c q : Slot} {e : Proc C} {point : Point} (hthread : s'.thread = update s.thread p point)
    (hprocs : s'.procs = update s.procs c e) (he : e.context = (s.procs c).context) (hq : q ≠ p) :
    s'.place q = s.place q := by
  apply place_congr
  · rw [hthread, update_of_ne hq]
  rw [hprocs]
  by_cases hqc : q = c
  · subst hqc
    rw [update_self, he]
  · rw [update_of_ne hqc]

/-- A slot without a place in `fork` gets none when its context is replaced by one without. -/
theorem place_run {q : Slot} (hrun : s.place q = .run) (hthread : s'.thread q = s.thread q)
    (hcontext : (s'.procs q).context = .forkret) : s'.place q = .run := by
  rw [place] at hrun ⊢
  rw [hthread]
  cases hpoint : s.thread q with
  | out => rw [hcontext]; rfl
  | free | swtch | resumed => simpa only [hpoint] using hrun
  | wait => rfl

/-- A thread moves without the lock. -/
theorem place_goto {place : Place} (hthread : s'.thread p = .free place) (hne : ∀ q ≠ p, s'.place q = s.place q) :
    s'.place = update s.place p place := by
  funext q
  by_cases hq : q = p
  · subst hq
    rw [update_self, place_of_free hthread]
  · rw [update_of_ne hq, hne q hq]

/-- A thread moves without the lock, and one slot is updated. -/
theorem place_set {c : Slot} {e : Proc C} {place : Place} (hthread : s'.thread = update s.thread p (.free place))
    (hprocs : s'.procs = update s.procs c e) (he : e.context = (s.procs c).context) :
    s'.place = update s.place p place :=
  place_goto (by rw [hthread, update_self]) fun _ => place_of_ne hthread hprocs he

variable [DecidableEq C]

theorem Held.context (h : s.Held k p me s') (q : Slot) : (s'.procs q).context = (s.procs q).context := by
  have hset (c : Slot) (e : Proc C) (he : e.context = (s.procs c).context) :
      (update s.procs c e q).context = (s.procs q).context := by
    by_cases hq : q = c
    · subst hq
      rw [update_self, he]
    · rw [update_of_ne hq]
  cases h with
  | exit => exact exitProcs_field Proc.context (fun _ _ _ => rfl) s.procs me q
  | wait | alone | forkret | yielded => rfl
  | reap c => exact hset c _ (by rfl)
  | waitSleep | sleep | yield | slept | woken => exact hset me _ (by rfl)

/-- With the lock, a thread stays where it is in `fork`. -/
theorem Held.place (h : s.Held k p me s') (q : Slot) : s'.place q = s.place q := by
  have hcontext := h.context q
  by_cases hq : q = p
  · subst hq
    cases h with
    | exit hat => simp [State.exit, hat.thread]
    | wait hat | alone hat => simp [hat.thread]
    | reap c a b hat => simp [State.reap, hat.thread]
    | waitSleep hat | sleep chan hat => simp [State.sleep, hat.thread]
    | yield place hat | forkret hat | yielded place hat => simp [hat.thread]
    | slept hat | woken hat => simp [tidy, hat.thread]
  · have hthread : s'.thread q = s.thread q := by
      cases h <;> exact update_of_ne hq ..
    exact place_congr hthread hcontext

end Place

section Switches

variable [DecidableEq K]

theorem Switch.place (h : s.Cpus) (hswitch : s.Switch k s') (q : Slot) : s'.place q = s.place q := by
  cases hswitch with
  | sched p me r hat =>
    obtain rfl := h.proc_eq hat
    by_cases hq : q = me
    · subst hq
      simp [hat.thread]
    · exact place_congr (update_of_ne hq ..) (congrArg Proc.context (update_of_ne hq ..))
  | start => rfl
  | pick p =>
    refine place_congr rfl ?_
    by_cases hq : q = p
    · subst hq
      simp
    · exact congrArg Proc.context (update_of_ne hq ..)
  | enter p hexec hproc =>
    by_cases hq : q = p
    · subst hq
      have hout := h.out_of_ne hproc (by rw [hexec]; nofun)
      simp [hout]
    · exact place_congr (update_of_ne hq ..) rfl
  | leave => rfl
  | done => rfl

/-- The scheduler runs what is `RUNNABLE`. -/
theorem Switch.state (hswitch : s.Switch k s') (q : Slot) :
    (s'.procs q).state = (s.procs q).state ∨ (s.procs q).state = .RUNNABLE ∧ (s'.procs q).state = .RUNNING := by
  cases hswitch with
  | sched p me r =>
    by_cases hq : q = me
    · subst hq
      simp
    · exact .inl (congrArg Proc.state (update_of_ne hq ..))
  | pick p hexec hrunnable =>
    by_cases hq : q = p
    · subst hq
      exact .inr ⟨hrunnable, by simp⟩
    · exact .inl (congrArg Proc.state (update_of_ne hq ..))
  | start | enter | leave | done => exact .inl rfl

end Switches

/-- The family tree of a state. -/
def family (s : State K C) : Family where
  status p := (s.procs p).state.status
  parent p := (s.procs p).parent
  place := s.place
  kstack p := (s.procs p).kstack
  pgdir p := (s.procs p).pgdir
  mem := s.mem
  lives := s.lives
  life := s.life
  origin := s.origin
  exited := s.exited
  waits := s.waits

section Fields

variable {procs : Slot → Proc C} {c : Slot} {e : Proc C} {X : Type}

/-- A field of the table after an update of one slot. -/
theorem field_update (field : Proc C → X) :
    (fun q => field (update procs c e q)) = update (fun q => field (procs q)) c (field e) :=
  Function.comp_update field procs c e

/-- A field that the update leaves alone. -/
theorem field_keep (field : Proc C → X) (h : field e = field (procs c)) :
    (fun q => field (update procs c e q)) = fun q => field (procs q) := by
  rw [field_update, h, update_eq_self]

end Fields

/-- What the tree shows of a slot. -/
def shown (e : Proc C) : Status × Option Slot × Option ℕ × Option ℕ :=
  (e.state.status, e.parent, e.kstack, e.pgdir)

/-- What the tree shows besides the slots. -/
def records (s : State K C) : (ℕ → Option Use) × ℕ × (Slot → ℕ) × (Slot → ℕ) × List ℕ × List (Slot × Option ℕ) :=
  (s.mem, s.lives, s.life, s.origin, s.exited, s.waits)

/-- A step that changes nothing the tree shows. -/
theorem family_congr (hshown : ∀ q, shown (s'.procs q) = shown (s.procs q)) (hplace : ∀ q, s'.place q = s.place q)
    (hrecords : s'.records = s.records) : s'.family = s.family := by
  simp only [shown, records, Prod.mk.injEq] at hshown hrecords
  obtain ⟨hmem, hlives, hlife, horigin, hexited, hwaits⟩ := hrecords
  apply Family.ext
  · exact funext fun q => (hshown q).1
  · exact funext fun q => (hshown q).2.1
  · exact funext hplace
  · exact funext fun q => (hshown q).2.2.1
  · exact funext fun q => (hshown q).2.2.2
  all_goals assumption

section Update

variable {c : Slot} {e : Proc C} {f : Family}

/-- An update of one slot that the tree does not see. -/
theorem family_update (hprocs : s'.procs = update s.procs c e) (hshown : shown e = shown (s.procs c))
    (hplace : ∀ q, s'.place q = s.place q) (hrecords : s'.records = s.records) : s'.family = s.family := by
  refine family_congr ?_ hplace hrecords
  rw [hprocs]
  exact congrFun (field_keep shown hshown)

/-- An update of one slot that the tree sees. -/
theorem step_update (hprocs : s'.procs = update s.procs c e) (hstep : s.family.Step f)
    (hplace : s'.place = f.place) (hstatus : update s.family.status c e.state.status = f.status)
    (hparent : update s.family.parent c e.parent = f.parent) (hkstack : update s.family.kstack c e.kstack = f.kstack)
    (hpgdir : update s.family.pgdir c e.pgdir = f.pgdir)
    (hrecords : s'.records = (f.mem, f.lives, f.life, f.origin, f.exited, f.waits)) : s.family.Step s'.family := by
  suffices heq : s'.family = f by rwa [heq]
  simp only [records, Prod.mk.injEq] at hrecords
  obtain ⟨hmem, hlives, hlife, horigin, hexited, hwaits⟩ := hrecords
  have hfield {X : Type} (field : Proc C → X) :
      (fun q => field (s'.procs q)) = update (fun q => field (s.procs q)) c (field e) := by
    rw [hprocs, field_update]
  apply Family.ext
  · exact (hfield fun e => e.state.status).trans hstatus
  · exact (hfield Proc.parent).trans hparent
  · exact hplace
  · exact (hfield Proc.kstack).trans hkstack
  · exact (hfield Proc.pgdir).trans hpgdir
  all_goals assumption

end Update

theorem nursery_of_ties (ht : s.family.Ties) : s.Nursery :=
  fun p np hp => ProcState.eq_embryo (ht.maker p np hp).2

section Quiet

/-- A slot that is being set up is nowhere in `fork` itself. -/
theorem place_of_embryo (ht : s.family.Ties) (hembryo : (s.procs p).state = .EMBRYO) : s.place p = .run := by
  apply Place.eq_run
  by_contra htarget
  obtain ⟨np, hnp⟩ := Option.ne_none_iff_exists'.mp htarget
  have hlive := (ht.maker p np hnp).1
  simp [family, hembryo, ProcState.status] at hlive

variable [DecidableEq C]

theorem Quiet.refines (hq : s.Quiet act s') (h : s.Cpus) (ht : s.family.Ties) :
    s'.family = s.family ∨ s.family.Step s'.family := by
  cases hq with
  | skip => exact .inl rfl
  | found k p me np hat hlock hunused =>
    have hlive : s.family.status p = .live := by simp [family, (h.pointOk hat).1, ProcState.status]
    have hborn : s.family.status np = .unused := by simp [family, hunused, ProcState.status]
    exact .inr (step_update rfl (.birth p np hlive (place_of_free hat.thread) hborn)
      (place_set rfl rfl (by rfl)) rfl (update_eq_self ..) (update_eq_self ..) (update_eq_self ..) rfl)
  | gotStack k p me np a hat hfree =>
    have hrun := place_of_embryo ht ((nursery_of_ties ht).of_free hat.thread rfl)
    have hplace : (s.gotStack p np a).place = update s.place p (.copyuvm np) := by
      refine place_goto (update_self ..) fun q hq => ?_
      have hthread : (s.gotStack p np a).thread q = s.thread q := update_of_ne hq ..
      by_cases hnp : q = np
      · subst hnp
        rw [hrun]
        exact place_run hrun hthread (by simp [State.gotStack])
      · exact place_congr hthread (congrArg Proc.context (update_of_ne hnp ..))
    exact .inr (step_update rfl (.stack p np a (place_of_free hat.thread) hfree)
      hplace (update_eq_self ..) (update_eq_self ..) rfl (update_eq_self ..) rfl)
  | noStack k p me np hat =>
    exact .inr (step_update rfl (.noStack p np (place_of_free hat.thread))
      (place_set rfl rfl (by rfl)) rfl (update_eq_self ..) rfl (update_eq_self ..) rfl)
  | gotDir k p me np a hat hfree =>
    exact .inr (step_update rfl (.dir p np a (place_of_free hat.thread) hfree)
      (place_set rfl rfl (by rfl)) (update_eq_self ..) (update_eq_self ..) (update_eq_self ..) rfl rfl)
  | noDir k p me np a hat hkstack =>
    exact .inr (step_update rfl (.noDir p np a (place_of_free hat.thread) hkstack)
      (place_set rfl rfl (by rfl)) rfl (update_eq_self ..) rfl rfl rfl)
  | inherit k p me np hat =>
    obtain rfl := h.proc_eq hat
    exact .inr (step_update rfl (.adopt me np (place_of_free hat.thread))
      (place_set rfl rfl (by rfl)) (update_eq_self ..) rfl (update_eq_self ..) (update_eq_self ..) rfl)
  | launch k p me np hat hlock =>
    exact .inr (step_update rfl (.launch p np (place_of_free hat.thread))
      (place_set rfl rfl (by rfl)) rfl (update_eq_self ..) (update_eq_self ..) (update_eq_self ..) rfl)
  | kill k pid p hlock hfind =>
    refine .inl (family_update rfl ?_ (fun q => place_congr rfl (congrFun (field_keep Proc.context (by rfl)) q)) rfl)
    by_cases hsleeping : (s.procs p).state = .SLEEPING <;> simp [shown, hsleeping, ProcState.status]
  | fault k p me hat =>
    exact .inl (family_update rfl rfl (fun q => place_congr rfl (congrFun (field_keep Proc.context (by rfl)) q)) rfl)
  | wakeup chan hlock =>
    have hwoken := wakeup1_woken s.procs (some chan)
    refine .inl (family_congr (fun q => ?_) (fun q => place_congr rfl (hwoken q).context) rfl)
    simp [shown, (hwoken q).status, (hwoken q).parent, (hwoken q).kstack, (hwoken q).pgdir]

end Quiet

section Held

/-- A thread changes its own state, but stays a process. -/
theorem family_self {point : Point} {e : Proc C} (h : s.Cpus) (hat : s.At k p me point)
    (hrunning : (s.procs p).state = .RUNNING) (hprocs : s'.procs = update s.procs me e)
    (hshown : shown e = (.live, (shown (s.procs me)).2)) (hplace : ∀ q, s'.place q = s.place q)
    (hrecords : s'.records = s.records) : s'.family = s.family := by
  obtain rfl := h.proc_eq hat
  refine family_update hprocs ?_ hplace hrecords
  rw [hshown, shown, hrunning]
  rfl

variable [DecidableEq C]

theorem Held.refines (hheld : s.Held k p me s') (h : s.Cpus) : s'.family = s.family ∨ s.family.Step s'.family := by
  have hplace := hheld.place
  have hrun {point : Point} (hat : s.At k p me point) (hrunning : (s.procs p).state = .RUNNING) :
      s.family.status me = .live := by
    rw [h.proc_eq hat]
    simp [family, hrunning, ProcState.status]
  cases hheld with
  | exit hat hlock hinit =>
    have heq : State.family { s.exit p me with lock := some k } = { s.family with
        status := update s.family.status me .zombie
        parent := fun q => heir me (s.family.parent q)
        exited := s.family.exited ++ [s.family.life me] } := by
      apply Family.ext
      · funext q
        by_cases hq : q = me
        · subst hq
          simp [family, State.exit, exitProcs_self, ProcState.status]
        · have hkeep : update s.family.status me .zombie q = s.family.status q := update_of_ne hq ..
          exact (exitProcs_status hq).trans hkeep.symm
      · funext q
        exact congrArg Proc.parent (exitProcs_eq s.procs me q)
      · exact funext hplace
      · exact funext (exitProcs_field Proc.kstack (fun _ _ _ => rfl) s.procs me)
      · exact funext (exitProcs_field Proc.pgdir (fun _ _ _ => rfl) s.procs me)
      all_goals rfl
    rw [heq]
    exact .inr (.exit me hinit (hrun hat (h.pointOk hat).1) (by rw [h.proc_eq hat]; exact place_of_free hat.thread))
  | wait hat | forkret hat | yielded place hat => exact .inl (family_congr (fun _ => rfl) hplace rfl)
  | reap c a b hat hlock hfind hkstack hpgdir =>
    obtain ⟨hparent, hzombie⟩ := findZombie_some hfind
    have hwait : s.family.place me = .run := by
      rw [h.proc_eq hat]
      simp [family, hat.thread]
    have hdead : s.family.status c = .zombie := by simp [family, hzombie, ProcState.status]
    exact .inr (step_update rfl
      (.reap me c a b (hrun hat (h.pointOk hat).1) hwait hparent hdead hkstack hpgdir) (funext hplace)
      rfl rfl rfl (update_eq_self ..) rfl)
  | alone hat =>
    exact .inr (step_update (c := me) (update_eq_self ..).symm (.alone me) (funext hplace)
      (update_eq_self ..) (update_eq_self ..) (update_eq_self ..) (update_eq_self ..) rfl)
  | waitSleep hat | sleep chan hat | yield place hat =>
    exact .inl (family_self h hat (h.pointOk hat).1 rfl rfl hplace rfl)
  | slept hat | woken hat =>
    have hrunning := (h.pointOk hat).1
    exact .inl (family_self h hat hrunning rfl (congrArg (·, _) (hrun hat hrunning)) hplace rfl)

end Held

section Switch

variable [DecidableEq K]

theorem Switch.refines (hswitch : s.Switch k s') (h : s.Cpus) : s'.family = s.family := by
  have hplace := hswitch.place h
  have hstatus (q : Slot) : (s'.procs q).state.status = (s.procs q).state.status := by
    cases hswitch.state q with
    | inl hsame => rw [hsame]
    | inr hpicked => rw [hpicked.1, hpicked.2]; rfl
  have hkeep (hkin : ∀ q, (shown (s'.procs q)).2 = (shown (s.procs q)).2) (hrecords : s'.records = s.records) :
      s'.family = s.family :=
    family_congr (fun q => Prod.ext (hstatus q) (hkin q)) hplace hrecords
  cases hswitch with
  | sched | pick => exact hkeep (congrFun (field_keep (fun e => (shown e).2) rfl)) rfl
  | start | enter | leave | done => exact hkeep (fun _ => rfl) rfl

end Switch

theorem cpus_boot : (boot : State K C).Cpus where
  ok _ := ⟨rfl, rfl, nofun⟩
  single _ _ _ h := nomatch h
  running p hp := by
    simp only [boot] at hp
    split at hp <;> cases hp
  out _ _ := rfl

theorem place_boot (p : Slot) : (boot : State K C).place p = .run := by
  simp only [State.place, boot]
  split <;> rfl

theorem status_boot (p : Slot) : (boot : State K C).family.status p = if p = initproc then .live else .unused := by
  simp only [family, boot]
  split <;> rfl

attribute [local simp] status_boot

theorem ties_boot : (boot : State K C).family.Ties := by
  have hparent (p : Slot) : (boot : State K C).family.parent p = none := by
    simp only [family, boot]
    split <;> rfl
  have htarget (p np : Slot) : ((boot : State K C).family.place p).target ≠ some np := by
    simp only [family, place_boot]
    nofun
  constructor
  · simp
  · exact hparent initproc
  · exact fun p hp => by cases (hparent p).symm.trans hp
  · exact fun p q hp => by cases (hparent p).symm.trans hp
  · intro p hp hlive
    simp [hp] at hlive
  · exact fun p _ => hparent p
  · exact fun p np hp => absurd hp (htarget p np)
  · exact fun p q np hp => absurd hp (htarget p np)
  · exact fun p np hp => absurd hp (htarget p np)
  · exact fun p np hp => absurd (hp ▸ rfl) (htarget p np)

theorem pages_boot : (boot : State K C).family.Pages := by
  have hinit {q : Slot} (h : (boot : State K C).family.status q = .live ∨
      (boot : State K C).family.status q = .zombie ∨ ∃ p, (boot : State K C).family.place p ≠ .run) :
      q = initproc := by
    by_contra hq
    have hplace (p : Slot) : (boot : State K C).family.place p = .run := place_boot p
    simp [hq, hplace] at h
  constructor
  · intro q hq
    obtain rfl := hinit (hq.imp_right (Or.imp_right fun ⟨p, hp⟩ => ⟨p, by rintro hrun; simp [hrun] at hp⟩))
    exact ⟨0, rfl, rfl⟩
  · intro q hq
    obtain rfl := hinit (hq.imp_right (Or.imp_right fun ⟨p, hp⟩ => ⟨p, by rintro hrun; simp [hrun] at hp⟩))
    exact ⟨1, rfl, rfl⟩

theorem accounts_boot : (boot : State K C).family.Accounts := by
  have hinit {q : Slot} (h : (boot : State K C).family.status q ≠ .unused) : q = initproc := by
    by_contra hq
    simp [hq] at h
  constructor
  · exact fun p _ => Nat.zero_lt_one
  · exact fun p q hp hq _ => (hinit hp).trans (hinit hq).symm
  · exact List.nodup_nil
  · exact fun l hl => nomatch hl
  · exact fun p _ => nofun
  · exact List.nodup_nil
  · exact fun l hl => nomatch hl
  · intro p hp
    obtain rfl := hinit (by rw [hp]; nofun)
    simp at hp
  · exact fun l hl => nomatch hl
  · exact fun p q hp => absurd hp (by simp only [family, boot]; split <;> nofun)

/-- What holds of every reachable state: the CPUs and the process table agree, and the family tree is in order. -/
structure Reachable (s : State K C) : Prop where
  cpus : s.Cpus
  ties : s.family.Ties
  pages : s.family.Pages
  accounts : s.family.Accounts

variable [DecidableEq K] [DecidableEq C]

theorem Trans.refines (htrans : s.Trans act s') (h : s.Cpus) (ht : s.family.Ties) :
    s'.family = s.family ∨ s.family.Step s'.family := by
  cases htrans with
  | quiet hq => exact hq.refines h ht
  | held k p me hheld => exact hheld.refines h
  | switch k hswitch => exact .inl (hswitch.refines h)

theorem Trans.cpus (htrans : s.Trans act s') (h : s.Cpus) (hn : s.Nursery) : s'.Cpus := by
  cases htrans with
  | quiet hq => exact h.quiet hn hq
  | held k p me hheld => exact h.held hheld
  | switch k hswitch => exact h.switch hswitch

theorem Reachable.step (h : s.Reachable) (htrans : s.Trans act s') : s'.Reachable := by
  have hcpus := htrans.cpus h.cpus (nursery_of_ties h.ties)
  cases htrans.refines h.cpus h.ties with
  | inl hsame => exact ⟨hcpus, hsame ▸ h.ties, hsame ▸ h.pages, hsame ▸ h.accounts⟩
  | inr hstep => exact ⟨hcpus, h.ties.step hstep, h.pages.step h.ties hstep, h.accounts.step h.ties hstep⟩

theorem reachable {trace : List (Action K C)} (h : Run step boot trace s) : s.Reachable := by
  refine Run.invariant (P := fun _ (t : State K C) => t.Reachable) ?_ ?_ h
  · exact ⟨cpus_boot, ties_boot, pages_boot, accounts_boot⟩
  · exact fun trace a t u _ ht hstep => ht.step (trans_of_step hstep)

end State

end Xv6.Ptable
