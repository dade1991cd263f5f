import Xv6.Lib.Lock
import Xv6.Lib.Run
import Xv6.Proc.Sleep

/-!
# No wakeup is lost

A process that sleeps while the condition is true is one for which a wakeup is on its way: since it tested the
condition, another process has made the condition true, and has not finished its scan of the process table. The two
locks overlap in `sleep`, so the scan cannot come between the release of `lk` and the process being asleep.
-/

namespace Xv6.Sleep

open Proc Lib
open Function (update update_self update_of_ne)

variable {K P C D : Type} {w : Wait C D} {s s' : State K P C D} {k : K} {p q : P} {point point' : Point}
  {trace since : List (Action K P D)} {a : Action K P D}

attribute [local simp] State.setProc

section History

/-- What happened since process `q` last tested the condition. -/
def Tested (trace : List (Action K P D)) (q : P) (since : List (Action K P D)) : Prop :=
  ∃ before k, trace = before ++ .proc k q .test :: since ∧ ∀ k, .proc k q .test ∉ since

/-- Since `q` last tested the condition, `p` has made it true, and has not finished a scan for the channel after
that. -/
def Pending (trace : List (Action K P D)) (p q : P) : Prop :=
  ∃ since before after k d, Tested trace q since ∧ since = before ++ .proc k p (.enable d) :: after ∧
    ∀ k, .proc k p .wakeup1 ∉ after

theorem Tested.test (trace : List (Action K P D)) (k : K) (q : P) : Tested (trace ++ [.proc k q .test]) q [] :=
  ⟨trace, k, rfl, fun _ => List.not_mem_nil⟩

theorem Tested.snoc (h : Tested trace q since) (ha : ∀ k, a ≠ .proc k q .test) :
    Tested (trace ++ [a]) q (since ++ [a]) := by
  obtain ⟨before, k, rfl, hsince⟩ := h
  refine ⟨before, k, by simp, fun k' hmem => ?_⟩
  rcases List.mem_append.mp hmem with hmem | hmem
  · exact hsince k' hmem
  · exact ha k' (List.mem_singleton.mp hmem).symm

theorem Pending.snoc (h : Pending trace p q) (htest : ∀ k, a ≠ .proc k q .test) (hscan : ∀ k, a ≠ .proc k p .wakeup1) :
    Pending (trace ++ [a]) p q := by
  obtain ⟨since, before, after, k, d, htested, rfl, hafter⟩ := h
  refine ⟨_, before, after ++ [a], k, d, htested.snoc htest, by simp, fun k' hmem => ?_⟩
  rcases List.mem_append.mp hmem with hmem | hmem
  · exact hafter k' hmem
  · exact hscan k' (List.mem_singleton.mp hmem).symm

theorem Tested.pending (h : Tested trace q since) (k : K) (p : P) (d : D) :
    Pending (trace ++ [.proc k p (.enable d)]) p q := by
  have hsince := h.snoc (a := .proc k p (.enable d)) fun _ heq => by simp at heq
  exact ⟨_, since, [], k, d, hsince, rfl, fun _ => List.not_mem_nil⟩

end History

/-- The locks that a CPU holds while its process is at this point. -/
def Point.holds (lk : Lock) : Point → Lock → Bool
  | .idle, _ | .relock, _ => false
  | .held _, l | .test, l | .sleep, l => l = lk
  | .unlock, l => l = lk ∨ l = .ptable
  | .sched, l | .resume, l | .yielded _, l => l = .ptable
  | .wakeup inside, l => inside = true ∧ l = lk
  | .scan inside, l | .done inside, l => l = .ptable ∨ inside = true ∧ l = lk

attribute [local simp] Point.holds

/-- Where a process is when it does not run. -/
def Point.away : Point → Bool
  | .resume | .yielded _ => true
  | _ => false

/-- A process that does not run is in `sched`, with `ptable.lock`. -/
theorem Point.holds_of_away (h : point.away = true) (lk l : Lock) : point.holds lk l = decide (l = .ptable) := by
  unfold Point.away at h
  split at h
  · rfl
  · rfl
  · cases h

theorem Point.interruptible_iff : point.interruptible = true ↔
    point = .idle ∨ point = .relock ∨ point = .wakeup false := by
  unfold Point.interruptible
  split
  · simp
  · simp
  · simp
  · next hidle hrelock hwakeup => simpa using ⟨hidle, hrelock, hwakeup⟩

theorem Point.holds_of_interruptible {lk : Lock} (h : point.interruptible = true) (l : Lock) :
    point.holds lk l = false := by
  rcases Point.interruptible_iff.mp h with rfl | rfl | rfl <;> simp

/-- A process between its test of the condition and the end of `sched`. -/
def Point.inSleep : Point → Bool
  | .sleep | .unlock | .sched | .resume => true
  | _ => false

/-- Points with two locks are not reached with `ptable.lock` for both, and a process yields without locks. -/
def Point.Ok (lk : Lock) : Point → Prop
  | .sleep | .unlock | .scan true | .done true => lk ≠ .ptable
  | .yielded back => back.interruptible = true
  | _ => True

/-- What a CPU runs, and where. -/
inductive Place
  | idle
  | scheduler
  | running (point : Point)

def Place.holds (lk : Lock) : Place → Lock → Bool
  | .idle, _ => false
  | .scheduler, l => l = .ptable
  | .running point, l => point.holds lk l

attribute [local simp] Place.holds

def State.place (s : State K P C D) (k : K) : Place :=
  match s.cpu k with
  | .idle => .idle
  | .scheduler => .scheduler
  | .proc p => .running (s.point p)

attribute [local simp] State.place

/-- Locks, CPUs and processes agree. -/
structure Sched (w : Wait C D) (s : State K P C D) : Prop where
  locks : ∀ l k, s.owner l = some k ↔ (s.place k).holds w.lk l = true
  cpus : ∀ p k k', s.cpu k = .proc p → s.cpu k' = .proc p → k = k'
  running : ∀ p, (s.procs p).state = .RUNNING ↔ ∃ k, s.cpu k = .proc p
  away : ∀ p, (s.procs p).state ≠ .RUNNING → (s.point p).away = true
  sleeping : ∀ p, (s.procs p).state = .SLEEPING → s.point p = .resume
  ok : ∀ p, (s.point p).Ok w.lk

/-- The process is asleep on the channel, or about to be with no way back. -/
def State.Dormant (w : Wait C D) (s : State K P C D) (q : P) : Prop :=
  s.point q = .sched ∨ (s.procs q).SleepsOn w.chan

/-- What processes in `sleep` can rely on. -/
structure Watch (w : Wait C D) (trace : List (Action K P D)) (s : State K P C D) : Prop where
  tested : ∀ q, (s.point q).inSleep = true → ∃ since, Tested trace q since
  known : ∀ q, s.point q = .sleep ∨ s.point q = .unlock → w.cond s.data = false
  pending : ∀ q, s.Dormant w q → w.cond s.data = true → ∃ p, Pending trace p q

/-- What every run keeps. -/
structure Kept (w : Wait C D) (trace : List (Action K P D)) (s : State K P C D) : Prop where
  sched : Sched w s
  watch : Watch w trace s

/-- A process can go on at the point: it has tested the condition, and knows it to be false, where it relies on that. -/
structure Informed (w : Wait C D) (s : State K P C D) (p : P) (point : Point) : Prop where
  sleep : point.inSleep = true → (s.point p).inSleep = true
  known : point = .sleep ∨ point = .unlock ∨ point = .sched → w.cond s.data = false

namespace Sched

theorem place_running (hcpu : s.cpu k = .proc p) : s.place k = .running (s.point p) := by
  rw [State.place, hcpu]

theorem owner_iff (h : Sched w s) (hcpu : s.cpu k = .proc p) (l : Lock) :
    s.owner l = some k ↔ (s.point p).holds w.lk l = true := by
  rw [h.locks, place_running hcpu]
  rfl

theorem state_eq (h : Sched w s) (hcpu : s.cpu k = .proc p) : (s.procs p).state = .RUNNING :=
  (h.running p).mpr ⟨k, hcpu⟩

/-- Only one process that runs holds a lock. -/
theorem eq_of_holds (h : Sched w s) (hcpu : s.cpu k = .proc p) {l : Lock} (hp : (s.point p).holds w.lk l = true)
    (hq : (s.point q).holds w.lk l = true) (haway : (s.point q).away = false) : q = p := by
  have hstate : (s.procs q).state = .RUNNING := by
    by_contra hne
    rw [h.away q hne] at haway
    cases haway
  obtain ⟨k', hcpu'⟩ := (h.running q).mp hstate
  have hk : k = k' := Option.mem_unique ((h.owner_iff hcpu l).mpr hp) ((h.owner_iff hcpu' l).mpr hq)
  subst hk
  cases hcpu.symm.trans hcpu'
  rfl

variable [DecidableEq K]

/-- One CPU goes on, with the locks of the place it comes to. -/
theorem locks_of_place (h : Sched w s) (hcpus : ∀ k' ≠ k, s'.cpu k' = s.cpu k')
    (hpoint : ∀ k' q, k' ≠ k → s.cpu k' = .proc q → s'.point q = s.point q)
    (howner : ∀ l, s'.owner l = handOver (s.owner l) k ((s'.place k).holds w.lk l))
    (hfree : ∀ l, (s'.place k).holds w.lk l = true → s.owner l = none ∨ s.owner l = some k) (l : Lock) (k' : K) :
    s'.owner l = some k' ↔ (s'.place k').holds w.lk l = true := by
  have hplace : s'.place = update s.place k (s'.place k) := by
    funext k'
    by_cases hk : k' = k
    · rw [hk, update_self]
    rw [update_of_ne hk, State.place, State.place, hcpus k' hk]
    cases hcpu : s.cpu k' with
    | idle => rfl
    | scheduler => rfl
    | proc q => exact congrArg Place.running (hpoint k' q hk hcpu)
  rw [howner, hplace]
  simpa using @handOver_iff K Place _ (fun x => x.holds w.lk l) _ s.place (h.locks l) k (s'.place k) (hfree l) k'

/-- One CPU goes on with something else. -/
theorem change {cpu : Cpu P} (h : Sched w s) (hcpus : s'.cpu = update s.cpu k cpu)
    (hnew : ∀ q k', cpu = .proc q → s.cpu k' = .proc q → k' = k)
    (hpoint : ∀ k' q, k' ≠ k → s.cpu k' = .proc q → s'.point q = s.point q)
    (howner : ∀ l, s'.owner l = handOver (s.owner l) k ((s'.place k).holds w.lk l))
    (hfree : ∀ l, (s'.place k).holds w.lk l = true → s.owner l = none ∨ s.owner l = some k)
    (hrunning : ∀ q, (s'.procs q).state = .RUNNING ↔
      cpu = .proc q ∨ (s.procs q).state = .RUNNING ∧ s.cpu k ≠ .proc q)
    (haway : ∀ q, (s'.procs q).state ≠ .RUNNING → (s'.point q).away = true)
    (hsleeping : ∀ q, (s'.procs q).state = .SLEEPING → s'.point q = .resume) (hok : ∀ q, (s'.point q).Ok w.lk) :
    Sched w s' := by
  have hcpu : ∀ q k', s'.cpu k' = .proc q ↔ k' = k ∧ cpu = .proc q ∨ k' ≠ k ∧ s.cpu k' = .proc q := by
    intro q k'
    rw [hcpus]
    by_cases hk : k' = k
    · simp [hk]
    · simp [hk]
  refine ⟨h.locks_of_place (fun k' hk => by rw [hcpus, update_of_ne hk]) hpoint howner hfree,
    fun q k₁ k₂ h₁ h₂ => ?_, fun q => ?_, haway, hsleeping, hok⟩
  · rcases (hcpu q k₁).mp h₁ with ⟨rfl, hq₁⟩ | ⟨-, hq₁⟩ <;> rcases (hcpu q k₂).mp h₂ with ⟨rfl, hq₂⟩ | ⟨-, hq₂⟩
    · rfl
    · exact (hnew q k₂ hq₁ hq₂).symm
    · exact hnew q k₁ hq₂ hq₁
    · exact h.cpus q k₁ k₂ hq₁ hq₂
  rw [hrunning, h.running]
  constructor
  · rintro (hq | ⟨⟨k', hk'⟩, hne⟩)
    · exact ⟨k, (hcpu q k).mpr (.inl ⟨rfl, hq⟩)⟩
    · exact ⟨k', (hcpu q k').mpr (.inr ⟨fun heq => hne (heq ▸ hk'), hk'⟩)⟩
  · rintro ⟨k', hk'⟩
    rcases (hcpu q k').mp hk' with ⟨-, hq⟩ | ⟨hne, hq⟩
    · exact .inl hq
    · exact .inr ⟨⟨k', hq⟩, fun hk => hne (h.cpus q k' k hq hk)⟩

section

variable [DecidableEq P]

/-- The CPU of a process goes on with the process at another point, and then holds the locks of that point. -/
structure Moved (w : Wait C D) (s : State K P C D) (k : K) (p : P) (place : Point) (s' : State K P C D) : Prop where
  cpu : s'.cpu = s.cpu
  point : s'.point = update s.point p place
  owner : ∀ l, s'.owner l = handOver (s.owner l) k (place.holds w.lk l)
  free : ∀ l, place.holds w.lk l = true → s.owner l = none ∨ s.owner l = some k
  running : ∀ q, (s'.procs q).state = .RUNNING ↔ (s.procs q).state = .RUNNING
  sleeping : ∀ q, (s'.procs q).state = .SLEEPING → (s.procs q).state = .SLEEPING
  ok : place.Ok w.lk

variable (h : Sched w s)

include h

section

variable (hcpu : s.cpu k = .proc p)

include hcpu

theorem move (hmoved : Moved w s k p point s') : Sched w s' := by
  have hne : ∀ q, (s.procs q).state ≠ .RUNNING → q ≠ p := by
    rintro q hq rfl
    exact hq (h.state_eq hcpu)
  have hplace : s'.place k = .running point := by
    rw [place_running (hmoved.cpu ▸ hcpu), hmoved.point, update_self]
  refine ⟨?_, ?_, fun q => ?_, fun q hq => ?_, fun q hq => ?_, fun q => ?_⟩
  · refine h.locks_of_place (k := k) (fun k' _ => by rw [hmoved.cpu]) (fun k' q hk hcpu' => ?_) ?_ ?_
    · rw [hmoved.point, update_of_ne]
      rintro rfl
      exact hk (h.cpus q k' k hcpu' hcpu)
    · rw [hplace]
      exact hmoved.owner
    · rw [hplace]
      exact hmoved.free
  · rw [hmoved.cpu]
    exact h.cpus
  · rw [hmoved.running, hmoved.cpu]
    exact h.running q
  · have hold := fun hrun => hq ((hmoved.running q).mpr hrun)
    rw [hmoved.point, update_of_ne (hne q hold)]
    exact h.away q hold
  · have hold := hmoved.sleeping q hq
    rw [hmoved.point, update_of_ne (hne q (by rw [hold]; decide))]
    exact h.sleeping q hold
  · rw [hmoved.point]
    by_cases hq : q = p
    · rw [hq, update_self]
      exact hmoved.ok
    · rw [update_of_ne hq]
      exact h.ok q

/-- The CPU takes a lock that is free. -/
theorem moved_acquire {l : Lock} (hfree : s.owner l = none)
    (hholds : ∀ l', point.holds w.lk l' = ((s.point p).holds w.lk l' || l' = l)) (hok : point.Ok w.lk) :
    Moved w s k p point ({ s with owner := update s.owner l (some k) }.goto p point) where
  cpu := rfl
  point := rfl
  owner l' := by
    simp only [hholds, State.goto]
    by_cases hl : l' = l
    · rw [hl, update_self]
      simp [handOver]
    · rw [update_of_ne hl, handOver_keep]
      simpa [hl] using h.owner_iff hcpu l'
  free l' hl' := by
    by_cases hl : l' = l
    · exact .inl (hl ▸ hfree)
    · rw [hholds] at hl'
      exact .inr ((h.owner_iff hcpu l').mpr (by simpa [hl] using hl'))
  running _ := .rfl
  sleeping _ := id
  ok := hok

/-- The CPU releases a lock that it holds. -/
theorem moved_release {l : Lock} (hheld : s.owner l = some k)
    (hholds : ∀ l', point.holds w.lk l' = ((s.point p).holds w.lk l' && l' ≠ l)) (hok : point.Ok w.lk) :
    Moved w s k p point ({ s with owner := update s.owner l none }.goto p point) where
  cpu := rfl
  point := rfl
  owner l' := by
    simp only [hholds, State.goto]
    by_cases hl : l' = l
    · subst hl
      simp [handOver, hheld]
    · rw [update_of_ne hl, handOver_keep]
      simpa [hl] using h.owner_iff hcpu l'
  free l' hl' := by
    rw [hholds, Bool.and_eq_true] at hl'
    exact .inr ((h.owner_iff hcpu l').mpr hl'.1)
  running _ := .rfl
  sleeping _ := id
  ok := hok

/-- The CPU keeps its locks. -/
theorem moved_keep {procs : P → Entry C} {d : D}
    (hrunning : ∀ q, (procs q).state = .RUNNING ↔ (s.procs q).state = .RUNNING)
    (hsleeping : ∀ q, (procs q).state = .SLEEPING → (s.procs q).state = .SLEEPING)
    (hholds : ∀ l, point.holds w.lk l = (s.point p).holds w.lk l) (hok : point.Ok w.lk) :
    Moved w s k p point ({ s with procs, data := d }.goto p point) where
  cpu := rfl
  point := rfl
  owner l := by rw [hholds, handOver_keep (h.owner_iff hcpu l), State.goto]
  free l hl := by
    rw [hholds] at hl
    exact .inr ((h.owner_iff hcpu l).mpr hl)
  running := hrunning
  sleeping := hsleeping
  ok := hok

/-- A process leaves its CPU to the scheduler, with `ptable.lock`. -/
theorem leave {e : Entry C} {owner : Lock → Option K} (howner : ∀ l, owner l = handOver (s.owner l) k (l = .ptable))
    (hfree : s.owner .ptable = none ∨ s.owner .ptable = some k) (hstate : e.state ≠ .RUNNING)
    (haway : point.away = true) (hsleep : e.state = .SLEEPING → point = .resume) (hok : point.Ok w.lk) :
    Sched w { s with
      owner, cpu := update s.cpu k .scheduler, procs := update s.procs p e, point := update s.point p point } := by
  refine h.change rfl nofun (fun k' q hk hcpu' => update_of_ne ?_ ..) ?_ ?_ (fun q => ?_) (fun q hq => ?_)
    (fun q hq => ?_) fun q => ?_
  · rintro rfl
    exact hk (h.cpus q k' k hcpu' hcpu)
  · simpa using howner
  · simpa using hfree
  · rw [hcpu]
    by_cases hq : q = p
    · simp [hq, hstate]
    · simp [hq, Ne.symm hq]
  · dsimp only at hq ⊢
    by_cases hp : q = p
    · rw [hp, update_self]
      exact haway
    · rw [update_of_ne hp] at hq ⊢
      exact h.away q hq
  · dsimp only at hq ⊢
    by_cases hp : q = p
    · subst hp
      rw [update_self] at hq ⊢
      exact hsleep hq
    · rw [update_of_ne hp] at hq ⊢
      exact h.sleeping q hq
  · dsimp only
    by_cases hp : q = p
    · rw [hp, update_self]
      exact hok
    · rw [update_of_ne hp]
      exact h.ok q

end

/-- The scheduler runs a process, and hands `ptable.lock` over to it. -/
theorem dispatch {e : Entry C} (hcpu : s.cpu k = .scheduler) (hp : (s.procs p).state = .RUNNABLE)
    (hstate : e.state = .RUNNING) :
    Sched w { s with cpu := update s.cpu k (.proc p), procs := update s.procs p e } := by
  have hidle : ∀ k', s.cpu k' ≠ .proc p := fun k' hk' => by
    have hrun := (h.running p).mpr ⟨k', hk'⟩
    rw [hp] at hrun
    cases hrun
  have hholds := Point.holds_of_away (h.away p (by rw [hp]; decide)) w.lk
  have howner : ∀ l, s.owner l = some k ↔ (decide (l = .ptable)) = true := by
    intro l
    rw [h.locks, State.place, hcpu]
    rfl
  refine h.change rfl (fun q k' hq hk' => ?_) (fun _ _ _ _ => rfl) (fun l => ?_) (fun l hl => ?_) (fun q => ?_)
    (fun q hq => ?_) (fun q hq => ?_) h.ok
  · cases hq
    exact absurd hk' (hidle k')
  · simp only [State.place, update_self, Place.holds, hholds, handOver_keep (howner l)]
  · simp only [State.place, update_self, Place.holds, hholds] at hl
    exact .inr ((howner l).mpr hl)
  · rw [hcpu]
    by_cases hq : q = p
    · simp [hq, hstate]
    · simp [hq, Ne.symm hq]
  · dsimp only at hq ⊢
    by_cases hqp : q = p
    · rw [hqp]
      exact h.away p (by rw [hp]; decide)
    · rw [update_of_ne hqp] at hq
      exact h.away q hq
  · dsimp only at hq ⊢
    by_cases hqp : q = p
    · rw [hqp, update_self, hstate] at hq
      cases hq
    · rw [update_of_ne hqp] at hq
      exact h.sleeping q hq

omit [DecidableEq K] in
theorem kill (pid : P) : Sched w { s with procs := kill s.procs pid } where
  locks := h.locks
  cpus := h.cpus
  running q := kill_running_iff.trans (h.running q)
  away q hq := h.away q fun hrun => hq (kill_running_iff.mpr hrun)
  sleeping q hq := h.sleeping q (sleeping_of_kill hq)
  ok := h.ok

end

/-- The scheduler of a CPU starts or ends a round over the process table. -/
theorem round (h : Sched w s) {cpu : Cpu P} (hcpu : ∀ p, s.cpu k ≠ .proc p)
    (hcpus : s'.cpu = update s.cpu k cpu) (hnew : ∀ p, cpu ≠ .proc p) (hpoint : s'.point = s.point)
    (hprocs : s'.procs = s.procs)
    (howner : ∀ l, s'.owner l = handOver (s.owner l) k ((s'.place k).holds w.lk l))
    (hfree : ∀ l, (s'.place k).holds w.lk l = true → s.owner l = none ∨ s.owner l = some k) : Sched w s' := by
  refine h.change hcpus (fun q _ hq => absurd hq (hnew q)) (fun _ q _ _ => by rw [hpoint]) howner hfree (fun q => ?_)
    (fun q hq => ?_) (fun q hq => ?_) fun q => ?_
  · rw [hprocs]
    simp [hnew, hcpu]
  · rw [hprocs] at hq
    rw [hpoint]
    exact h.away q hq
  · rw [hprocs] at hq
    rw [hpoint]
    exact h.sleeping q hq
  · rw [hpoint]
    exact h.ok q

end Sched

namespace Watch

/-- An action that neither tests the condition nor wakes up processes, nor changes the data. -/
theorem keep (h : Watch w trace s) (htest : ∀ k q, a ≠ .proc k q .test) (hscan : ∀ k q, a ≠ .proc k q .wakeup1)
    (hdata : s'.data = s.data) (hsleep : ∀ q, (s'.point q).inSleep = true → (s.point q).inSleep = true)
    (hknown : ∀ q, s'.point q = .sleep ∨ s'.point q = .unlock → w.cond s.data = false)
    (hdormant : ∀ q, s'.Dormant w q → s.Dormant w q ∨ w.cond s.data = false) : Watch w (trace ++ [a]) s' where
  tested q hq := by
    obtain ⟨since, hsince⟩ := h.tested q (hsleep q hq)
    exact ⟨_, hsince.snoc fun k => htest k q⟩
  known q hq := by
    rw [hdata]
    exact hknown q hq
  pending q hq hcond := by
    rw [hdata] at hcond
    rcases hdormant q hq with hold | hfalse
    · obtain ⟨p, hp⟩ := h.pending q hold hcond
      exact ⟨p, hp.snoc (fun k => htest k q) fun k => hscan k p⟩
    · rw [hfalse] at hcond
      cases hcond

variable [DecidableEq P]

/-- A process goes on at a point that is not in `sleep`, or knows what it needs there. -/
theorem move {act : Act D} (h : Watch w trace s) (htest : act ≠ .test) (hscan : act ≠ .wakeup1)
    (hdata : s'.data = s.data) (hpoint : s'.point = update s.point p point)
    (hinf : Informed w s p point) (hprocs : ∀ q, (s'.procs q).SleepsOn w.chan → s.Dormant w q) :
    Watch w (trace ++ [.proc k p act]) s' := by
  refine h.keep ?_ ?_ hdata (fun q hq => ?_) (fun q hq => ?_) fun q hq => ?_
  · rintro k q heq
    cases heq
    exact htest rfl
  · rintro k q heq
    cases heq
    exact hscan rfl
  · rw [hpoint] at hq
    by_cases hp : q = p
    · subst hp
      rw [update_self] at hq
      exact hinf.sleep hq
    · rwa [update_of_ne hp] at hq
  · rw [hpoint] at hq
    by_cases hp : q = p
    · rw [hp, update_self] at hq
      exact hinf.known (hq.imp_right .inl)
    · rw [update_of_ne hp] at hq
      exact h.known q hq
  · rcases hq with hq | hq
    · rw [hpoint] at hq
      by_cases hp : q = p
      · rw [hp, update_self] at hq
        exact .inr (hinf.known (.inr (.inr hq)))
      · rw [update_of_ne hp] at hq
        exact .inl (.inl hq)
    · exact .inl (hprocs q hq)

end Watch

namespace State

variable [DecidableEq K] {l : Lock} {next : State K P C D → State K P C D}

theorem acquire_eq_ok : s.acquire k l next = some (.ok s') ↔
    s.owner l = none ∧ next { s with owner := update s.owner l (some k) } = s' := by
  unfold acquire
  split_ifs with hheld hfree
  · simp [hheld]
  · simp [hfree]
  · simp [hfree]

theorem release_eq_ok : s.release k l next = some (.ok s') ↔
    s.owner l = some k ∧ next { s with owner := update s.owner l none } = s' := by
  unfold release
  split_ifs with hheld <;> simp [hheld]

theorem sched_eq_ok (h : s.sched k p = some (.ok s')) :
    s.owner .ptable = some k ∧ { s with cpu := update s.cpu k .scheduler } = s' := by
  unfold sched at h
  split_ifs at h with hheld hlocks hrunning
  · simp at h
  · simp at h
  · simp at h
  · exact ⟨not_not.mp hheld, Except.ok.inj (Option.some.inj h)⟩

end State

section Act

/-- A process that holds `lk` finds `ptable.lock` free: they are not the same lock. -/
theorem lk_ne_of_free (hs : Sched w s) (hcpu : s.cpu k = .proc p) (hfree : s.owner .ptable = none)
    (hholds : (s.point p).holds w.lk w.lk = true) : w.lk ≠ .ptable := by
  intro hlk
  have howner := (hs.owner_iff hcpu w.lk).mpr hholds
  rw [hlk, hfree] at howner
  cases howner

variable [DecidableEq K] [DecidableEq P] [DecidableEq C]

section OnCpu

variable (hs : Sched w s) (hw : Watch w trace s) (hcpu : s.cpu k = .proc p)

include hs hw hcpu

omit [DecidableEq C] in
/-- A process tests the condition, and goes on or into `sleep`. -/
theorem testCond_keeps (hpoint : ∀ l, (s.point p).holds w.lk l = decide (l = w.lk)) :
    Kept w (trace ++ [.proc k p .test]) (s.testCond w p) := by
  have hcases : ∃ point, s.testCond w p = s.goto p point ∧ (∀ l, point.holds w.lk l = decide (l = w.lk)) ∧
      point.Ok w.lk ∧ (point = .sleep ∨ point = .unlock ∨ point = .sched → w.cond s.data = false) := by
    unfold State.testCond
    split_ifs with hcond hlk
    · exact ⟨_, rfl, fun _ => rfl, trivial, by simp⟩
    · exact ⟨_, rfl, fun _ => rfl, hlk, by simpa using hcond⟩
    · exact ⟨_, rfl, fun _ => by rw [not_not.mp hlk]; rfl, trivial, by simpa using hcond⟩
  obtain ⟨point, heq, hholds, hok, hknown⟩ := hcases
  rw [heq]
  refine ⟨hs.move hcpu (hs.moved_keep hcpu (fun _ => .rfl) (fun _ => id) ?_ hok), ?_⟩
  · exact fun l => (hholds l).trans (hpoint l).symm
  have hother : ∀ q ≠ p, (s.goto p point).point q = s.point q := fun q hq => update_of_ne hq ..
  have hself : (s.goto p point).point p = point := update_self ..
  refine { tested := fun q hq => ?_, known := fun q hq => ?_, pending := fun q hq hcond => ?_ }
  · by_cases hp : q = p
    · exact ⟨[], hp ▸ Tested.test trace k p⟩
    · rw [hother q hp] at hq
      obtain ⟨since, hsince⟩ := hw.tested q hq
      exact ⟨_, hsince.snoc fun k' heq => hp (by cases heq; rfl)⟩
  · by_cases hp : q = p
    · rw [hp, hself] at hq
      exact hknown (hq.imp_right .inl)
    · rw [hother q hp] at hq
      exact hw.known q hq
  · by_cases hp : q = p
    · subst hp
      rcases hq with hq | hq
      · rw [hself] at hq
        cases (hknown (.inr (.inr hq))).symm.trans hcond
      · cases (hs.state_eq hcpu).symm.trans hq.1
    · have hdormant : s.Dormant w q := hq.imp_left fun hq => by rwa [hother q hp] at hq
      obtain ⟨p', hpending⟩ := hw.pending q hdormant hcond
      exact ⟨p', hpending.snoc (fun k' heq => hp (by cases heq; rfl)) fun k' heq => by cases heq⟩

omit [DecidableEq C] in
/-- A process that holds `lk` changes the data. If the condition becomes true, a wakeup is pending for every process
that sleeps. -/
theorem setData_keeps {due due' : Bool} {d : D} {act : Act D} (hpoint : s.point p = .held due)
    (hact : act = .enable d ∨ (w.cond d = true → w.cond s.data = true) ∧ act = .change d) :
    Kept w (trace ++ [.proc k p act]) ({ s with data := d }.goto p (.held due')) := by
  refine ⟨hs.move hcpu (hs.moved_keep hcpu (fun _ => .rfl) (fun _ => id) (fun l => ?_) trivial), ?_⟩
  · rw [hpoint]
    rfl
  have hself : ({ s with data := d }.goto p (.held due')).point p = .held due' := update_self ..
  have hpoint' : ∀ q, ({ s with data := d }.goto p (.held due')).point q ≠ .held due' →
      ({ s with data := d }.goto p (.held due')).point q = s.point q := by
    intro q hq
    refine update_of_ne ?_ ..
    rintro rfl
    exact hq hself
  have htest : ∀ q k', Action.proc k p act ≠ .proc k' q .test := by
    rintro q k' heq
    rcases hact with rfl | ⟨-, rfl⟩ <;> cases heq
  refine { tested := fun q hq => ?_, known := fun q hq => ?_, pending := fun q hq hcond => ?_ }
  · rw [hpoint' q (by rintro heq; rw [heq] at hq; cases hq)] at hq
    obtain ⟨since, hsince⟩ := hw.tested q hq
    exact ⟨_, hsince.snoc (htest q)⟩
  · -- only one process holds `lk`
    have heq := hpoint' q (by rintro heq; rw [heq] at hq; rcases hq with hq | hq <;> cases hq)
    rw [heq] at hq
    have hqp : q = p := by
      refine hs.eq_of_holds hcpu (l := w.lk) (by simp [hpoint]) ?_ ?_ <;>
        rcases hq with hq | hq <;> simp [hq, Point.away]
    rw [hqp, hpoint] at hq
    rcases hq with hq | hq <;> cases hq
  have hdormant : s.Dormant w q := hq.imp_left fun hq => by
    rwa [hpoint' q (by rintro heq; rw [heq] at hq; cases hq)] at hq
  have hsleep : (s.point q).inSleep = true := by
    rcases hdormant with hd | hd
    · rw [hd]
      rfl
    · rw [hs.sleeping q hd.1]
      rfl
  rcases hact with rfl | ⟨himp, rfl⟩
  · obtain ⟨since, hsince⟩ := hw.tested q hsleep
    exact ⟨p, hsince.pending k p d⟩
  · obtain ⟨p', hpending⟩ := hw.pending q hdormant (himp hcond)
    exact ⟨p', hpending.snoc (htest q) fun k' heq => by cases heq⟩

/-- A process with `ptable.lock` scans the table: then no process sleeps on the channel, or is about to. -/
theorem wakeup1_keeps (hholds : ∀ l, point.holds w.lk l = (s.point p).holds w.lk l)
    (htable : (s.point p).holds w.lk .ptable = true)
    (haway : s.point p ≠ .sched) (hok : point.Ok w.lk) (hsleep : point.inSleep = false) :
    Kept w (trace ++ [.proc k p .wakeup1]) ({ s with procs := wakeup1 s.procs w.chan }.goto p point) := by
  refine ⟨hs.move hcpu (hs.moved_keep hcpu (fun _ => wakeup1_running_iff)
    (fun _ => sleeping_of_wakeup1) hholds hok), ?_⟩
  have hpoint : ∀ q, (({ s with procs := wakeup1 s.procs w.chan }.goto p point).point q).inSleep = true →
      ({ s with procs := wakeup1 s.procs w.chan }.goto p point).point q = s.point q := by
    intro q hq
    refine update_of_ne ?_ ..
    rintro rfl
    simp [State.goto, hsleep] at hq
  refine { tested := fun q hq => ?_, known := fun q hq => ?_, pending := fun q hq hcond => ?_ }
  · rw [hpoint q hq] at hq
    obtain ⟨since, hsince⟩ := hw.tested q hq
    exact ⟨_, hsince.snoc fun k' heq => by cases heq⟩
  · rw [hpoint q (by rcases hq with hq | hq <;> rw [hq] <;> rfl)] at hq
    exact hw.known q hq
  rcases hq with hq | hq
  · rw [hpoint q (by rw [hq]; rfl)] at hq
    have hqp : q = p := hs.eq_of_holds hcpu htable (by rw [hq]; rfl) (by rw [hq]; rfl)
    exact absurd (hqp ▸ hq) haway
  · exact absurd rfl (sleepsOn_wakeup1.mp hq).2

omit [DecidableEq C] in
/-- A process takes a lock, releases one, or keeps those it has. -/
theorem moved_keeps {act : Act D} (hmoved : Sched.Moved w s k p point s') (htest : act ≠ .test) (hscan : act ≠ .wakeup1)
    (hdata : s'.data = s.data) (hinf : Informed w s p point)
    (hprocs : ∀ q, (s'.procs q).SleepsOn w.chan → (s.procs q).SleepsOn w.chan) : Kept w (trace ++ [.proc k p act]) s' :=
  ⟨hs.move hcpu hmoved, hw.move htest hscan hdata hmoved.point hinf fun q hq => .inr (hprocs q hq)⟩

section Locks

variable {act : Act D} {l : Lock}

omit [DecidableEq C] in
theorem acquire_keeps (hfree : s.owner l = none) (htest : act ≠ .test) (hscan : act ≠ .wakeup1)
    (hholds : ∀ l', point.holds w.lk l' = ((s.point p).holds w.lk l' || l' = l)) (hok : point.Ok w.lk)
    (hinf : Informed w s p point) :
    Kept w (trace ++ [.proc k p act]) ({ s with owner := update s.owner l (some k) }.goto p point) :=
  moved_keeps hs hw hcpu (hs.moved_acquire hcpu hfree hholds hok) htest hscan rfl hinf fun _ => id

omit [DecidableEq C] in
theorem release_keeps (hheld : s.owner l = some k) (htest : act ≠ .test) (hscan : act ≠ .wakeup1)
    (hholds : ∀ l', point.holds w.lk l' = ((s.point p).holds w.lk l' && l' ≠ l)) (hok : point.Ok w.lk)
    (hinf : Informed w s p point) :
    Kept w (trace ++ [.proc k p act]) ({ s with owner := update s.owner l none }.goto p point) :=
  moved_keeps hs hw hcpu (hs.moved_release hcpu hheld hholds hok) htest hscan rfl hinf fun _ => id

omit [DecidableEq C] in
theorem goto_keeps (htest : act ≠ .test) (hscan : act ≠ .wakeup1)
    (hholds : ∀ l, point.holds w.lk l = (s.point p).holds w.lk l) (hok : point.Ok w.lk)
    (hsleep : point.inSleep = false) : Kept w (trace ++ [.proc k p act]) (s.goto p point) := by
  refine moved_keeps hs hw hcpu (hs.moved_keep hcpu (fun _ => .rfl) (fun _ => id) hholds hok) htest
    hscan rfl ⟨fun h => ?_, ?_⟩ fun _ => id
  · rw [hsleep] at h
    cases h
  · rintro (rfl | rfl | rfl) <;> cases hsleep

end Locks

section Switch

omit [DecidableEq K] [DecidableEq C] in
/-- A process that runs is not asleep, whatever its channel. -/
theorem tidy_keeps : Kept w trace (s.setProc p { s.procs p with chan := none }) := by
  have hstate : ∀ q, ((s.setProc p { s.procs p with chan := none }).procs q).state = (s.procs q).state := by
    intro q
    by_cases hq : q = p
    · subst hq
      simp
    · simp [hq]
  refine ⟨⟨hs.locks, hs.cpus, fun q => ?_, fun q hq => ?_, fun q hq => ?_, hs.ok⟩,
    ⟨hw.tested, hw.known, fun q hq => ?_⟩⟩
  · rw [hstate]
    exact hs.running q
  · rw [hstate] at hq
    exact hs.away q hq
  · rw [hstate] at hq
    exact hs.sleeping q hq
  refine hw.pending q (hq.imp_right fun hsleeps => ?_)
  by_cases hp : q = p
  · subst hp
    have hsleep := (hstate q).symm.trans hsleeps.1
    cases (hs.state_eq hcpu).symm.trans hsleep
  · simpa [hp] using hsleeps

omit [DecidableEq C] in
/-- A process goes to sleep, and hands `ptable.lock` over to the scheduler. -/
theorem sleep_keeps (hpoint : s.point p = .sched) : Kept w (trace ++ [.proc k p .next]) { s with
    cpu := update s.cpu k .scheduler, point := update s.point p .resume
    procs := update s.procs p { s.procs p with chan := some w.chan, state := .SLEEPING } } := by
  have howns : ∀ l, s.owner l = some k ↔ decide (l = .ptable) = true := fun l => by
    rw [hs.owner_iff hcpu, hpoint]
    rfl
  refine ⟨hs.leave hcpu (fun l => ?_) (.inr ((howns .ptable).mpr rfl)) nofun rfl (fun _ => rfl) trivial,
    hw.move nofun nofun rfl rfl ⟨fun _ => ?_, by simp⟩ fun q hq => ?_⟩
  · rw [handOver_keep (howns l)]
  · rw [hpoint]
    rfl
  dsimp only at hq
  by_cases hp : q = p
  · exact .inl (hp ▸ hpoint)
  · rw [update_of_ne hp] at hq
    exact .inr hq

omit [DecidableEq C] in
/-- A process is interrupted by the timer. -/
theorem yield_keeps (hpoint : (s.point p).interruptible = true) (hfree : s.owner .ptable = none) :
    Kept w (trace ++ [.proc k p .yield]) { s with
      owner := update s.owner .ptable (some k), cpu := update s.cpu k .scheduler
      procs := update s.procs p { s.procs p with state := .RUNNABLE }
      point := update s.point p (.yielded (s.point p)) } := by
  refine ⟨hs.leave hcpu (fun l => ?_) (.inl hfree) nofun rfl nofun hpoint,
    hw.move nofun nofun rfl rfl ⟨nofun, by simp⟩ fun q hq => .inr ?_⟩
  · by_cases hl : l = .ptable
    · rw [hl, update_self]
      rfl
    · rw [update_of_ne hl, handOver_keep]
      rw [hs.owner_iff hcpu, Point.holds_of_interruptible hpoint]
      simp [hl]
  · dsimp only at hq
    by_cases hp : q = p
    · rw [hp, update_self] at hq
      cases hq.1
    · rwa [update_of_ne hp] at hq

end Switch

theorem act_keeps {act : Act D} (hact : s.act w k p (s.point p) act = some (.ok s')) :
    Kept w (trace ++ [.proc k p act]) s' := by
  have hok := hs.ok p
  unfold State.act at hact
  split at hact
  · next hpt =>
    obtain ⟨hfree, rfl⟩ := State.acquire_eq_ok.mp hact
    refine acquire_keeps hs hw hcpu hfree nofun nofun (fun l => ?_) trivial ⟨nofun, by simp⟩
    rw [hpt]
    rfl
  · next hpt =>
    cases hact
    refine goto_keeps hs hw hcpu nofun nofun (fun l => ?_) trivial rfl
    simp [hpt]
  · next hpt =>
    cases hact
    exact testCond_keeps hs hw hcpu fun l => by rw [hpt]; rfl
  · next due d hpt =>
    simp only [enabled_ok_iff] at hact
    obtain ⟨-, rfl⟩ := hact
    exact setData_keeps hs hw hcpu hpt (.inl rfl)
  · next due d hpt =>
    simp only [enabled_ok_iff] at hact
    obtain ⟨himp, rfl⟩ := hact
    exact setData_keeps hs hw hcpu hpt (.inr ⟨himp, rfl⟩)
  · next due hpt =>
    cases hact
    refine goto_keeps hs hw hcpu nofun nofun (fun l => ?_) trivial rfl
    simp [hpt]
  · next due hpt =>
    simp only [enabled_ok_iff] at hact
    obtain ⟨hlk, rfl⟩ := hact
    refine wakeup1_keeps hs hw hcpu (fun l => by rw [hpt]; rfl) ?_ (by simp [hpt]) trivial rfl
    simp [hpt, hlk]
  · next due hpt =>
    obtain ⟨hheld, rfl⟩ := State.release_eq_ok.mp hact
    refine release_keeps hs hw hcpu hheld nofun nofun (fun l => ?_) ?_ ⟨?_, ?_⟩
    all_goals cases due <;> simp [hpt, Point.Ok, Point.inSleep]
  · next hpt =>
    cases hact
    exact testCond_keeps hs hw hcpu fun l => by rw [hpt]; rfl
  · next hpt =>
    obtain ⟨hfree, rfl⟩ := State.acquire_eq_ok.mp hact
    refine acquire_keeps hs hw hcpu hfree nofun nofun (fun l => ?_) ?_ ⟨?_, fun _ => hw.known p (.inl hpt)⟩
    · simp [hpt]
    · exact lk_ne_of_free hs hcpu hfree (by simp [hpt])
    · rw [hpt]
      exact id
  · next hpt =>
    obtain ⟨hheld, rfl⟩ := State.release_eq_ok.mp hact
    rw [hpt] at hok
    refine release_keeps hs hw hcpu hheld nofun nofun (fun l => ?_) trivial ⟨?_, fun _ => hw.known p (.inr hpt)⟩
    · rw [hpt]
      revert hok
      cases w.lk <;> cases l <;> simp [Point.Ok]
    · rw [hpt]
      exact id
  · next hpt =>
    obtain ⟨-, rfl⟩ := State.sched_eq_ok hact
    exact sleep_keeps hs hw hcpu hpt
  · next hpt =>
    obtain ⟨hs₁, hw₁⟩ := tidy_keeps hs hw hcpu
    split_ifs at hact with hlk
    · obtain ⟨hheld, rfl⟩ := State.release_eq_ok.mp hact
      refine release_keeps hs₁ hw₁ hcpu hheld nofun nofun (fun l => ?_) trivial ⟨nofun, by simp⟩
      simp [hpt]
    · cases hact
      refine goto_keeps hs₁ hw₁ hcpu nofun nofun (fun l => ?_) trivial rfl
      simp [hpt, not_not.mp hlk]
  · next hpt =>
    obtain ⟨hfree, rfl⟩ := State.acquire_eq_ok.mp hact
    refine acquire_keeps hs hw hcpu hfree nofun nofun (fun l => ?_) trivial ⟨nofun, by simp⟩
    rw [hpt]
    rfl
  · next inside hpt =>
    obtain ⟨hfree, rfl⟩ := State.acquire_eq_ok.mp hact
    refine acquire_keeps hs hw hcpu hfree nofun nofun (fun l => ?_) ?_ ⟨nofun, by simp⟩
    · simp [hpt, Bool.or_comm]
    · cases inside with
      | false => trivial
      | true => exact lk_ne_of_free hs hcpu hfree (by simp [hpt])
  · next inside hpt =>
    cases hact
    rw [hpt] at hok
    exact wakeup1_keeps hs hw hcpu (fun l => by rw [hpt]; rfl) (by simp [hpt]) (by simp [hpt])
      (by cases inside <;> exact hok) rfl
  · next inside hpt =>
    obtain ⟨hheld, rfl⟩ := State.release_eq_ok.mp hact
    rw [hpt] at hok
    refine release_keeps hs hw hcpu hheld nofun nofun (fun l => ?_) ?_ ⟨?_, ?_⟩
    · rw [hpt]
      revert hok
      cases inside <;> cases w.lk <;> cases l <;> simp [Point.Ok]
    all_goals cases inside <;> simp [Point.Ok, Point.inSleep]
  · next back hpt =>
    obtain ⟨hheld, rfl⟩ := State.release_eq_ok.mp hact
    rw [hpt] at hok
    rcases Point.interruptible_iff.mp hok with rfl | rfl | rfl <;>
      exact release_keeps hs hw hcpu hheld nofun nofun (fun l => by simp [hpt]) trivial ⟨nofun, by simp⟩
  · simp only [Option.ite_none_right_eq_some] at hact
    obtain ⟨⟨hpt, hfree⟩, hact⟩ := hact
    obtain ⟨-, rfl⟩ := State.sched_eq_ok hact
    exact yield_keeps hs hw hcpu hpt hfree
  · cases hact

end OnCpu

omit [DecidableEq C] in
theorem schedule_keeps {choice : Option P} (hs : Sched w s) (hw : Watch w trace s)
    (hstep : s.schedule k (s.cpu k) choice = some (.ok s')) :
    Kept w (trace ++ [.scheduler k choice]) s' := by
  unfold State.schedule at hstep
  split at hstep
  · next hcpu =>
    obtain ⟨hfree, rfl⟩ := State.acquire_eq_ok.mp hstep
    have hnone : ∀ l, s.owner l ≠ some k := fun l howner => by
      have hholds := (hs.locks l k).mp howner
      rw [State.place, hcpu] at hholds
      cases hholds
    refine ⟨hs.round (by simp [hcpu]) rfl nofun rfl rfl (fun l => ?_) fun l hl => ?_,
      hw.keep nofun nofun rfl (fun _ => id) hw.known fun q hq => .inl hq⟩
    · simp only [State.place, update_self, Place.holds]
      by_cases hl : l = .ptable
      · rw [hl, update_self]
        rfl
      · rw [update_of_ne hl, handOver_keep]
        simp [hl, hnone l]
    · simp only [State.place, update_self, Place.holds, decide_eq_true_eq] at hl
      exact .inl (hl ▸ hfree)
  · next p hcpu =>
    simp only [enabled_ok_iff] at hstep
    obtain ⟨hp, rfl⟩ := hstep
    refine ⟨hs.dispatch hcpu hp rfl,
      hw.keep nofun nofun rfl (fun _ => id) hw.known fun q hq => .inl (hq.imp_right fun hsleeps => ?_)⟩
    by_cases hqp : q = p
    · subst hqp
      simp [Entry.SleepsOn] at hsleeps
    · simpa [hqp] using hsleeps
  · next hcpu =>
    obtain ⟨hheld, rfl⟩ := State.release_eq_ok.mp hstep
    have howns : ∀ l, s.owner l = some k ↔ l = .ptable := fun l => by
      rw [hs.locks, State.place, hcpu]
      simp
    refine ⟨hs.round (by simp [hcpu]) rfl nofun rfl rfl (fun l => ?_) fun l hl => ?_,
      hw.keep nofun nofun rfl (fun _ => id) hw.known fun q hq => .inl hq⟩
    · simp only [State.place, update_self, Place.holds]
      by_cases hl : l = .ptable
      · subst hl
        simp [handOver, hheld]
      · rw [update_of_ne hl, handOver_keep]
        simp [howns, hl]
    · simp at hl
  · cases hstep

theorem step_keeps (hs : Sched w s) (hw : Watch w trace s) (hstep : step w s a = some (.ok s')) :
    Kept w (trace ++ [a]) s' := by
  cases a with
  | proc k p act =>
    simp only [step, Option.ite_none_right_eq_some] at hstep
    exact act_keeps hs hw hstep.1 hstep.2
  | scheduler k choice => exact schedule_keeps hs hw hstep
  | kill pid =>
    simp only [step, enabled_ok_iff] at hstep
    obtain ⟨-, rfl⟩ := hstep
    refine ⟨hs.kill pid, hw.keep nofun nofun rfl (fun _ => id) hw.known fun q hq => .inl ?_⟩
    exact hq.imp_right sleepsOn_of_kill

end Act

theorem Sched.boot (w : Wait C D) (data : D) : Sched w (State.boot data : State K P C D) where
  locks l k := by simp [State.boot]
  cpus p k k' h := by cases h
  running p := by simp [State.boot]
  away p _ := rfl
  sleeping p h := by cases h
  ok p := rfl

theorem Watch.boot (w : Wait C D) (data : D) : Watch w [] (State.boot data : State K P C D) where
  tested q h := by cases h
  known q h := by rcases h with h | h <;> cases h
  pending q h := by
    rcases h with h | h
    · cases h
    · cases h.1

/-- No wakeup is lost. For any number of processes and CPUs, any lock and any condition: if a process sleeps on the
channel while the condition is true, then since it last tested the condition some process has made it true, and that
process has not finished its scan of the process table. -/
theorem no_lost_wakeup [DecidableEq K] [DecidableEq P] [DecidableEq C] (w : Wait C D) (data : D)
    (h : Run (step w) (State.boot data : State K P C D) trace s) (hsleeps : (s.procs q).SleepsOn w.chan)
    (hcond : w.cond s.data = true) : ∃ p, Pending trace p q := by
  have hkept : Kept w trace s := Run.invariant (P := Kept w) ⟨.boot w data, .boot w data⟩
    (fun _ _ _ _ _ hu hstep => step_keeps hu.1 hu.2 hstep) h
  exact hkept.watch.pending q (.inr hsleeps) hcond

/-- Process 0 waits for a positive number on CPU 0, and sleeps; process 1 has stored one, and is about to scan the
process table. -/
def almostAwake : List (Action (Fin 2) (Fin 2) ℕ) :=
  [.scheduler 0 none, .scheduler 0 (some 0), .proc 0 0 .next, .proc 0 0 .acquire, .proc 0 0 .test, .proc 0 0 .next,
    .proc 0 0 .next, .proc 0 0 .next, .scheduler 0 (some 1), .proc 0 1 .next, .proc 0 1 .acquire,
    .proc 0 1 (.enable 1), .proc 0 1 .release, .proc 0 1 .next]

theorem no_lost_wakeup_almost_awake :
    let w : Wait Unit ℕ := { lk := .other, chan := (), cond := fun n => 0 < n }
    ∃ s, Run (step w) (State.boot 0) almostAwake s ∧ (s.procs 0).SleepsOn () ∧ 0 < s.data ∧
      ∃ p : Fin 2, Pending almostAwake p 0 := by
  intro w
  obtain ⟨s, hrun, hcheck⟩ := run_of_check (step w) (State.boot 0) almostAwake
    (fun s => (s.procs 0).SleepsOn () ∧ 0 < s.data) (by decide +kernel)
  obtain ⟨hsleeps, hcond⟩ := of_decide_eq_true hcheck
  exact ⟨s, hrun, hsleeps, hcond, no_lost_wakeup w 0 hrun hsleeps (decide_eq_true hcond)⟩

end Xv6.Sleep
