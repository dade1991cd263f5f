import Xv6.Pipe.Fifo

/-!
# Sleeping on a pipe

Whenever a process sleeps on a pipe, or is about to, while it could go on, another process holds the lock of the pipe
and will wake it up. One path of the code breaks this: `pipewrite` gives up on a full pipe without waking up the
readers of the bytes it has stored.
-/

namespace Xv6.Pipe

open Proc Lib
open Function (update update_self update_of_ne)

variable {P : Type} [DecidableEq P] {s s' : State P} {p q : P} {op op' : Op} {point point' : Point} {c : Chan}

attribute [local simp] State.goto State.setProc handOver

/-- A process that sleeps on the channel could go on. -/
def State.Ready (s : State P) : Chan → Prop
  | .nread => ¬(s.empty ∧ s.writeopen = true)
  | .nwrite => ¬(s.full ∧ s.readopen = true)

/-- The channel on which a process is about to sleep, with the lock of the pipe released. -/
def dozing : Option (Op × Point) → Option Chan
  | some (op, .sched) => some op.chan
  | _ => none

/-- The process sleeps on the channel, or is about to. -/
def State.Dormant (s : State P) (q : P) (c : Chan) : Prop := dozing (s.calls q) = some c ∨ (s.procs q).SleepsOn c

instance (s : State P) (q : P) (c : Chan) : Decidable (s.Dormant q c) := inferInstanceAs (Decidable (_ ∨ _))

/-- A call at this point will wake up the other side. -/
def Owes : Op → Point → Prop
  | .write .., point => point = .test ∨ point = .wait ∨ point = .rouse ∨ point = .finish
  | .read .., point => point = .copy ∨ point = .finish
  | .close _, point => point = .finish

attribute [local simp] Owes

/-- If a process on the channel could go on, the process that holds the lock will wake it up. -/
def State.Covered (s : State P) (c : Chan) : Prop :=
  s.Ready c → ∃ h op point, s.lock = some h ∧ s.calls h = some (op, point) ∧ op.wakes = c ∧ Owes op point

/-- The process holds `ptable.lock`. -/
def inTable : Option (Op × Point) → Bool
  | some (_, .unlock) | some (_, .sched) | some (_, .resume) => true
  | _ => false

variable {call : Option (Op × Point)} {a : Action P}

theorem exists_of_dozing (h : dozing call = some c) : ∃ op, call = some (op, .sched) ∧ op.chan = c := by
  unfold dozing at h
  split at h
  · exact ⟨_, rfl, Option.some.inj h⟩
  · cases h

theorem inTable_of_dozing (h : dozing call = some c) : inTable call = true := by
  obtain ⟨op, rfl, -⟩ := exists_of_dozing h
  rfl

theorem dozing_eq_none (h : inTable call = false) : dozing call = none :=
  Option.eq_none_iff_forall_ne_some.mpr fun _ hdoze => Bool.false_ne_true (h.symm.trans (inTable_of_dozing hdoze))

/-- What a call has found out before it sleeps. -/
def Known (s : State P) (op : Op) : Point → Prop
  | .wait => match op with
    | .write .. => s.full
    | .read .. => ¬s.Ready .nread
    | .close _ => False
  | .rouse => match op with
    | .write .. => ¬s.Ready .nwrite
    | _ => False
  | .sleep | .unlock => ¬s.Ready op.chan
  | .copy => match op with
    | .read .. => True
    | _ => False
  | _ => True

/-- What a process in a call has found out. -/
def Informed (s : State P) : Option (Op × Point) → Prop
  | some (op, point) => Known s op point
  | none => True

/-- The invariant of sleeping processes. -/
structure Vigil (s : State P) : Prop where
  inv : Inv s
  table : ∀ p, s.ptable = some p ↔ inTable (s.calls p) = true
  known : ∀ p op point, s.calls p = some (op, point) → Known s op point
  covered : ∀ q c, s.Dormant q c → s.Covered c

/-- A process goes on, and the invariant is kept if it knows what it needs, and whoever sleeps is covered. -/
theorem Vigil.move (h : Vigil s) (hinv : Inv s') (hcalls : s'.calls = update s.calls p call)
    (htable : s'.ptable = handOver s.ptable p (inTable call))
    (hfree : inTable call = true → s.ptable = none ∨ s.ptable = some p)
    (hpipe : s.lock ≠ some p → ∀ op point, Known s op point → Known s' op point)
    (hknown : Informed s' call) (hcovered : ∀ q c, s'.Dormant q c → s'.Covered c) : Vigil s' := by
  refine { inv := hinv, table := fun q => ?_, known := fun q op point hcall => ?_, covered := hcovered }
  · rw [htable, hcalls]
    exact handOver_iff h.table hfree q
  rw [hcalls] at hcall
  by_cases hq : q = p
  · subst hq
    rw [update_self] at hcall
    rwa [hcall] at hknown
  rw [update_of_ne hq] at hcall
  have hold := h.known q op point hcall
  by_cases hlock : s.lock = some p
  · have hholds : ¬holding (s.calls q) = true := fun hholds => by
      have hlock' := (h.inv.lock q).mpr hholds
      rw [hlock] at hlock'
      exact hq (Option.some.inj hlock').symm
    rw [hcall] at hholds
    cases point <;> trivial
  · exact hpipe hlock op point hold

/-- The two states agree on the counters and the flags. -/
structure SamePipe (s s' : State P) : Prop where
  nread : s'.nread = s.nread
  nwrite : s'.nwrite = s.nwrite
  readopen : s'.readopen = s.readopen
  writeopen : s'.writeopen = s.writeopen

omit [DecidableEq P] in
theorem SamePipe.ready (h : SamePipe s s') (c : Chan) : s'.Ready c ↔ s.Ready c := by
  cases c <;>
    simp only [State.Ready, State.empty, State.full, h.nread, h.nwrite, h.readopen, h.writeopen]

omit [DecidableEq P] in
theorem SamePipe.known (h : SamePipe s s') (op : Op) (point : Point) : Known s' op point ↔ Known s op point := by
  have hfull : s'.full ↔ s.full := by simp only [State.full, h.nread, h.nwrite]
  cases point <;> cases op <;> simp only [Known, h.ready, hfull]

omit [DecidableEq P] in
theorem SamePipe.informed (h : SamePipe s s') (hknown : Informed s call) : Informed s' call := by
  cases call with
  | none => trivial
  | some c => exact (h.known c.1 c.2).mpr hknown

section Covered

omit [DecidableEq P] in
/-- Without anyone who will wake them up, processes on the channel could not go on. -/
theorem Vigil.not_ready (h : Vigil s) (hdormant : s.Dormant q c)
    (howes : ∀ h op point, s.lock = some h → s.calls h = some (op, point) → op.wakes = c → ¬Owes op point) :
    ¬s.Ready c := by
  intro hready
  obtain ⟨h, op, point, hlock, hcall, hwakes, howes'⟩ := h.covered q c hdormant hready
  exact howes h op point hlock hcall hwakes howes'

omit [DecidableEq P] in
/-- The process that holds the lock will not wake up the channel. -/
theorem Vigil.not_ready_of_holder (h : Vigil s) (hdormant : s.Dormant q c) (hlock : s.lock = some p)
    (hcall : s.calls p = some (op, point)) (howes : op.wakes = c → ¬Owes op point) : ¬s.Ready c := by
  refine h.not_ready hdormant fun h op₁ point₁ hlock₁ hcall₁ hwakes => ?_
  obtain rfl := Option.mem_unique hlock hlock₁
  obtain ⟨rfl, rfl⟩ := Prod.mk.inj (Option.mem_unique hcall hcall₁)
  exact howes hwakes

omit [DecidableEq P] in
/-- A channel on which no process could go on. -/
theorem covered_of_not_ready (h : ¬s.Ready c) : s.Covered c := fun hready => absurd hready h

variable {call : Option (Op × Point)}

/-- A process that goes on, and is not about to sleep, makes none dormant. -/
theorem dormant_of (hdormant : s'.Dormant q c) (hcalls : s'.calls = update s.calls p call)
    (hdozing : dozing call = none) (hprocs : ∀ q c, (s'.procs q).SleepsOn c → (s.procs q).SleepsOn c) :
    s.Dormant q c := by
  rcases hdormant with hdoze | hsleeps
  · rw [hcalls] at hdoze
    by_cases hq : q = p
    · rw [hq, update_self, hdozing] at hdoze
      cases hdoze
    · rw [update_of_ne hq] at hdoze
      exact .inl hdoze
  · exact .inr (hprocs q c hsleeps)

theorem sleepsOn_setProc {e : Entry Chan} (he : ¬e.SleepsOn c) (hsleeps : ((s.setProc p e).procs q).SleepsOn c) :
    (s.procs q).SleepsOn c := by
  by_cases hq : q = p
  · simp [hq, he] at hsleeps
  · simpa [hq] using hsleeps

/-- A process without the lock goes on. -/
theorem Vigil.covered_of_idle (h : Vigil s) (hdormant : s.Dormant q c) (hlock : s.lock ≠ some p)
    (hcalls : s'.calls = update s.calls p call) (hlock' : s'.lock = s.lock) (hpipe : SamePipe s s') :
    s'.Covered c := by
  intro hready
  obtain ⟨holder, op, point, hholder, hcall, howes⟩ := h.covered q c hdormant ((hpipe.ready c).mp hready)
  have hne : holder ≠ p := by
    rintro rfl
    exact hlock hholder
  refine ⟨holder, op, point, by rw [hlock', hholder], ?_, howes⟩
  rw [hcalls, update_of_ne hne, hcall]

/-- The process with the lock goes on to a point at which it will wake up its channel. -/
theorem covered_of_owes (op' : Op) (point' : Point) (hlock : s'.lock = some p)
    (hcalls : s'.calls = update s.calls p (some (op', point'))) (howes : Owes op' point') : s'.Covered op'.wakes :=
  fun _ => ⟨p, op', point', hlock, by rw [hcalls, update_self], rfl, howes⟩

/-- The process with the lock goes on. Either it will wake up the channel, or no process there could go on. -/
theorem Vigil.covered_of_holder (h : Vigil s) (hdormant : s.Dormant q c) (hlock : s.lock = some p)
    (hcall : s.calls p = some (op, point)) (hcalls : s'.calls = update s.calls p (some (op', point')))
    (hlock' : s'.lock = some p) (hwakes : op'.wakes = op.wakes) (howes : Owes op point → Owes op' point')
    (hready : ¬s.Ready c → ¬s'.Ready c) : s'.Covered c := by
  by_cases hc : op.wakes = c ∧ Owes op point
  · rw [← hc.1, ← hwakes]
    exact covered_of_owes op' point' hlock' hcalls (howes hc.2)
  · refine covered_of_not_ready (hready (h.not_ready_of_holder hdormant hlock hcall fun hwakes' howes' => ?_))
    exact hc ⟨hwakes', howes'⟩

end Covered

/-- A writer is about to test whether to give up on a full pipe. -/
def testsFull : Option (Op × Point) → Bool
  | some (.write .., .wait) => true
  | _ => false

/-- A writer is about to return -1. -/
def givesUp : Option (Op × Point) → Bool
  | some (.write .., .release r) => r = -1
  | _ => false

/-- In this step a writer gives up on a full pipe while a reader sleeps, or is about to. -/
def Abandons (s t : State P) : Prop :=
  ∃ p, testsFull (s.calls p) = true ∧ givesUp (t.calls p) = true ∧ ∃ q, s.Dormant q .nread

instance [Fintype P] : DecidableRel (Abandons (P := P)) := fun _ _ => inferInstanceAs (Decidable (∃ _, _))

section Steps

variable {n : ℤ} {addr : ℕ → UInt8} {i : ℕ} {places : List ℕ} {got : List UInt8} {r : ℤ}

section

variable (h : Vigil s)

include h

omit [DecidableEq P] in
theorem Vigil.ptable_ne (hplace : inTable (s.calls p) = false) : s.ptable ≠ some p := fun heq => by
  have hin := (h.table p).mp heq
  rw [hplace] at hin
  cases hin

/-- The process with the lock goes on; the process table does not change. -/
theorem Vigil.goOn (hinv : Inv s') (hcall : s.calls p = some (op, point)) (hpoint : point.holds = true)
    (hcalls : s'.calls = update s.calls p (some (op', point'))) (htable : s'.ptable = s.ptable)
    (hprocs : s'.procs = s.procs) (hplace : inTable (some (op, point)) = false)
    (hplace' : inTable (some (op', point')) = false) (hknown : Known s' op' point')
    (hcovered : ∀ q c, s.Dormant q c → s'.Covered c) : Vigil s' := by
  have hlock := h.inv.lock_of_holds hcall hpoint
  refine h.move hinv hcalls ?_ (fun hin => ?_) (fun hne => absurd hlock hne) hknown fun q c hdormant => hcovered q c
    (dormant_of hdormant hcalls (dozing_eq_none hplace') fun _ _ hsleeps => by rwa [hprocs] at hsleeps)
  · simp [hplace', htable, h.ptable_ne (by rw [hcall, hplace])]
  · rw [hplace'] at hin
    cases hin

/-- The process with the lock goes on with the same operation, and will still wake up the other side if it would. -/
theorem Vigil.goto (hinv : Inv (s.goto p op point')) (hcall : s.calls p = some (op, point))
    (hpoint : point.holds = true) (hplace : inTable (some (op, point)) = false)
    (hplace' : inTable (some (op, point')) = false) (hknown : Known s op point')
    (howes : Owes op point → Owes op point') : Vigil (s.goto p op point') := by
  have hsame : SamePipe s (s.goto p op point') := ⟨rfl, rfl, rfl, rfl⟩
  have hlock := h.inv.lock_of_holds hcall hpoint
  refine h.goOn hinv hcall hpoint rfl rfl rfl hplace hplace' ((hsame.known ..).mpr hknown) fun q c hdormant => ?_
  exact h.covered_of_holder hdormant hlock hcall rfl hlock rfl howes (mt (hsame.ready c).mp)

theorem Vigil.testWrite (hcall : s.calls p = some (.write n addr i places, .test)) :
    Vigil (s.test p (.write n addr i places)) := by
  have hinv := h.inv.testWrite hcall
  have hlock := h.inv.lock_of_holds hcall rfl
  simp only [State.test] at hinv ⊢
  split_ifs at hinv ⊢ with hlt hfull
  · exact h.goto hinv hcall rfl rfl rfl hfull fun _ => .inr (.inl rfl)
  · refine h.goOn hinv hcall rfl rfl rfl rfl rfl rfl trivial fun q c hdormant => ?_
    cases c with
    | nread => exact covered_of_owes (.write n addr (i + 1) _) .test hlock rfl (.inl rfl)
    | nwrite =>
      -- a writer that sleeps has found the pipe full
      have hready := h.not_ready_of_holder hdormant hlock hcall fun hwakes => by cases hwakes
      exact absurd (not_not.mp hready).1 hfull
  · exact h.goto hinv hcall rfl rfl rfl trivial fun _ => .inr (.inr (.inr rfl))

theorem Vigil.testRead (hcall : s.calls p = some (.read n got, .test)) : Vigil (s.test p (.read n got)) := by
  have hinv := h.inv.testRead hcall
  simp only [State.test] at hinv ⊢
  split_ifs at hinv ⊢ with hwait
  · exact h.goto hinv hcall rfl rfl rfl (not_not.mpr hwait) (by simp)
  · exact h.goto hinv hcall rfl rfl rfl trivial (by simp)

theorem Vigil.testClose {writable : Bool} (hcall : s.calls p = some (.close writable, .test)) :
    Vigil (s.test p (.close writable)) := by
  have hinv := h.inv.testClose hcall
  have hlock := h.inv.lock_of_holds hcall rfl
  have hready : ∀ q c, s.Dormant q c → ¬s.Ready c := fun q c hdormant =>
    h.not_ready_of_holder hdormant hlock hcall fun _ => by simp
  simp only [State.test] at hinv ⊢
  split_ifs at hinv ⊢ with hwritable
  · refine h.goOn hinv hcall rfl rfl rfl rfl rfl rfl trivial fun q c hdormant => ?_
    cases c with
    | nread =>
      subst hwritable
      exact covered_of_owes (.close true) .finish hlock rfl rfl
    | nwrite => exact covered_of_not_ready (hready q .nwrite hdormant)
  refine h.goOn hinv hcall rfl rfl rfl rfl rfl rfl trivial fun q c hdormant => ?_
  cases c with
  | nread => exact covered_of_not_ready (hready q .nread hdormant)
  | nwrite =>
    obtain rfl : writable = false := by simpa using hwritable
    exact covered_of_owes (.close false) .finish hlock rfl rfl

/-- A call on a full or empty pipe. A writer that gives up must not leave a reader asleep. -/
theorem Vigil.wait (hcall : s.calls p = some (op, .wait)) (hok : ¬Abandons s (s.wait p op)) :
    Vigil (s.wait p op) := by
  have hinv := h.inv.wait hcall
  have hknown := h.known p _ _ hcall
  cases op with
  | close writable => exact hknown.elim
  | read n got =>
    simp only [State.wait] at hinv ⊢
    split_ifs at hinv ⊢
    · exact h.goto hinv hcall rfl rfl rfl trivial (by simp)
    · exact h.goto hinv hcall rfl rfl rfl hknown (by simp)
  | write n addr i places =>
    simp only [State.wait] at hinv hok ⊢
    split_ifs at hinv hok ⊢ with hgive
    · refine h.goOn hinv hcall rfl rfl rfl rfl rfl rfl trivial fun q c hdormant => ?_
      cases c with
      | nread =>
        refine absurd ⟨p, ?_, ?_, q, hdormant⟩ hok
        · rw [hcall]
          rfl
        · simp [givesUp]
      | nwrite =>
        have hlock := h.inv.lock_of_holds hcall rfl
        exact covered_of_not_ready (h.not_ready_of_holder hdormant hlock hcall fun hwakes => by cases hwakes)
    · have hopen : s.readopen = true := by
        by_contra hclosed
        exact hgive (.inl (by simpa using hclosed))
      exact h.goto hinv hcall rfl rfl rfl (not_not.mpr ⟨hknown, hopen⟩) fun _ => .inr (.inr (.inl rfl))

theorem Vigil.copy (hcall : s.calls p = some (op, .copy)) : Vigil (s.copy p op) := by
  have hinv := h.inv.copy hcall
  have hlock := h.inv.lock_of_holds hcall rfl
  cases op with
  | write n addr i places | close writable => exact (h.known p _ _ hcall).elim
  | read n got =>
    simp only [State.copy] at hinv ⊢
    split_ifs at hinv ⊢ with hmore
    · refine h.goOn hinv hcall rfl rfl rfl rfl rfl rfl trivial fun q c hdormant => ?_
      cases c with
      | nread =>
        -- a reader that sleeps has found the pipe empty
        have hready := h.not_ready_of_holder hdormant hlock hcall fun hwakes => by cases hwakes
        exact absurd (not_not.mp hready).1 hmore.2
      | nwrite => exact covered_of_owes (.read n _) .copy hlock rfl (.inl rfl)
    · exact h.goto hinv hcall rfl rfl rfl trivial fun _ => .inr rfl

/-- A call wakes up the other side: no process sleeps there any more, or is about to. -/
theorem Vigil.wakeup (hcall : s.calls p = some (op, point)) (hpoint : point.holds = true)
    (hplace' : inTable (some (op, point')) = false) (hfree : s.ptable = none) (hknown : Known s op point')
    (hinv : Inv ((s.wakeup op.wakes).goto p op point')) : Vigil ((s.wakeup op.wakes).goto p op point') := by
  have hdoze := dozing_eq_none hplace'
  have hlock := h.inv.lock_of_holds hcall hpoint
  have hsame : SamePipe s ((s.wakeup op.wakes).goto p op point') := ⟨rfl, rfl, rfl, rfl⟩
  refine h.move hinv rfl ?_ (fun hin => absurd hin (by simp [hplace'])) (fun hne => absurd hlock hne)
    ((hsame.known op point').mpr hknown) fun q c hdormant => ?_
  · simp [hplace', hfree, State.wakeup]
  have hbefore : s.Dormant q c := dormant_of hdormant rfl hdoze fun _ _ hsleeps => (sleepsOn_wakeup1.mp hsleeps).1
  refine covered_of_not_ready ?_
  refine h.not_ready_of_holder hbefore hlock hcall fun hwakes => absurd hwakes.symm ?_
  rcases hdormant with hdoze' | hsleeps
  · -- no process is about to sleep while the process table is free
    have hin : inTable (s.calls q) = true := by
      by_cases hq : q = p
      · rw [hq, State.goto_calls, update_self, hdoze] at hdoze'
        cases hdoze'
      · rw [State.goto_calls, update_of_ne hq] at hdoze'
        exact inTable_of_dozing hdoze'
    rw [← h.table q, hfree] at hin
    cases hin
  · exact (sleepsOn_wakeup1.mp hsleeps).2

end

section Pass

variable {call : Option (Op × Point)} (h : Vigil s) (hinv : Inv s') (hcalls : s'.calls = update s.calls p call)
  (htable : s'.ptable = handOver s.ptable p (inTable call))
  (hfree : inTable call = true → s.ptable = none ∨ s.ptable = some p) (hsame : SamePipe s s')
  (hknown : Informed s call)

include h hinv hcalls htable hfree hsame hknown

/-- A process goes on, and the pipe does not change. -/
theorem Vigil.pass (hdormant : ∀ q c, s'.Dormant q c → s.Dormant q c ∨ ¬s.Ready c)
    (hcovered : ∀ q c, s.Dormant q c → s'.Covered c) : Vigil s' := by
  refine h.move hinv hcalls htable hfree (fun _ op point hk => (hsame.known op point).mpr hk)
    (hsame.informed hknown) fun q c hdormant' => ?_
  rcases hdormant q c hdormant' with hbefore | hready
  · exact hcovered q c hbefore
  · exact covered_of_not_ready (mt (hsame.ready c).mp hready)

/-- A process without the lock goes on, and is about to sleep only if it was so before. -/
theorem Vigil.idle (hlock : s.lock ≠ some p) (hlock' : s'.lock = s.lock)
    (hdormant : ∀ q c, s'.Dormant q c → s.Dormant q c) : Vigil s' :=
  h.pass hinv hcalls htable hfree hsame hknown (fun q c hd => .inl (hdormant q c hd))
    fun _ _ hd => h.covered_of_idle hd hlock hcalls hlock' hsame

/-- A process takes or lets go of the lock, and does not wake up anyone. -/
theorem Vigil.pass_lock (hnobody : ∀ h op point, s.lock = some h → s.calls h = some (op, point) → ¬Owes op point)
    (hdormant : ∀ q c, s'.Dormant q c → s.Dormant q c ∨ ¬s.Ready c) : Vigil s' := by
  refine h.pass hinv hcalls htable hfree hsame hknown hdormant fun q c hd => ?_
  refine covered_of_not_ready (mt (hsame.ready c).mp (h.not_ready hd fun holder op point hlock hcall _ => ?_))
  exact hnobody holder op point hlock hcall

end Pass

/-- A process goes on with its call. -/
theorem Vigil.run (h : Vigil s) (hcall : s.calls p = some (op, point)) (hrun : s.run p op point = some s')
    (hok : ¬Abandons s s') : Vigil s' := by
  have hinv := h.inv.run hcall hrun
  have hknown := h.known p _ _ hcall
  have hplace : inTable (some (op, point)) = false → s.ptable ≠ some p := fun hplace =>
    h.ptable_ne (by rw [hcall, hplace])
  have htable : inTable (some (op, point)) = true → s.ptable = some p := fun hin => (h.table p).mpr (hcall ▸ hin)
  have hunlocked : point.holds = false → s.lock ≠ some p := fun hpoint hlock => by
    have hholds := (h.inv.lock p).mp hlock
    rw [hcall] at hholds
    exact absurd (hpoint.symm.trans hholds) (by decide)
  have hnobody : point.holds = true → ¬Owes op point → ∀ h op point, s.lock = some h → s.calls h = some (op, point) →
      ¬Owes op point := by
    intro hpoint howes holder op₁ point₁ hlock hcall₁
    obtain rfl := Option.mem_unique (h.inv.lock_of_holds hcall hpoint) hlock
    obtain ⟨rfl, rfl⟩ := Prod.mk.inj (Option.mem_unique hcall hcall₁)
    exact howes
  cases point with
  | acquire =>
    simp only [State.run, enabled_iff] at hrun
    obtain ⟨⟨hlock, -⟩, rfl⟩ := hrun
    refine h.pass_lock hinv rfl ?_ (fun hin => by cases hin) ⟨rfl, rfl, rfl, rfl⟩ trivial
      (fun _ _ _ hholder => by simp [hlock] at hholder) fun q c hd => ?_
    · simp [inTable, hplace rfl]
    · exact .inl (dormant_of hd rfl rfl fun _ _ hsleeps => hsleeps)
  | test =>
    cases hrun
    cases op with
    | write n addr i places => exact h.testWrite hcall
    | read n got => exact h.testRead hcall
    | close writable => exact h.testClose hcall
  | wait =>
    cases hrun
    exact h.wait hcall hok
  | rouse =>
    simp only [State.run, enabled_iff] at hrun
    obtain ⟨hfree, rfl⟩ := hrun
    cases op with
    | write n addr i places =>
      have hwake : Vigil ((s.wakeup (Op.write n addr i places).wakes).goto p (.write n addr i places) .sleep) :=
        h.wakeup hcall rfl rfl hfree hknown hinv
      exact hwake
    | read n got => exact hknown.elim
    | close writable => exact hknown.elim
  | sleep =>
    simp only [State.run, enabled_iff] at hrun
    obtain ⟨hfree, rfl⟩ := hrun
    refine h.pass_lock hinv rfl rfl (fun _ => .inl hfree) ⟨rfl, rfl, rfl, rfl⟩ hknown
      (hnobody rfl (by cases op <;> simp)) fun q c hd => ?_
    exact .inl (dormant_of hd rfl rfl fun _ _ hsleeps => hsleeps)
  | unlock =>
    cases hrun
    refine h.pass_lock hinv rfl (htable rfl) (fun _ => .inr (htable rfl)) ⟨rfl, rfl, rfl, rfl⟩ trivial
      (hnobody rfl (by cases op <;> simp)) fun q c hd => ?_
    -- the process that is about to sleep has tested the pipe while it had the lock
    rcases hd with hdoze | hsleeps
    · by_cases hq : q = p
      · rw [hq, State.goto_calls, update_self] at hdoze
        cases hdoze
        exact .inr hknown
      · rw [State.goto_calls, update_of_ne hq] at hdoze
        exact .inl (.inl hdoze)
    · exact .inl (.inr hsleeps)
  | sched =>
    cases hrun
    refine h.idle hinv rfl ?_ (fun hin => by cases hin) ⟨rfl, rfl, rfl, rfl⟩ trivial (hunlocked rfl) rfl
      fun q c hd => ?_
    · simp [inTable, htable rfl]
    by_cases hq : q = p
    · subst hq
      refine .inl ?_
      rcases hd with hdoze | hsleeps
      · simp [dozing] at hdoze
      · rw [hcall, dozing, ← hsleeps.2]
        simp
    · rcases hd with hdoze | hsleeps
      · rw [State.goto_calls, update_of_ne hq] at hdoze
        exact .inl hdoze
      · simp only [State.goto, State.setProc, update_of_ne hq] at hsleeps
        exact .inr hsleeps
  | asleep =>
    simp only [State.run, enabled_iff] at hrun
    obtain ⟨⟨hfree, -⟩, rfl⟩ := hrun
    refine h.idle hinv rfl rfl (fun _ => .inl hfree) ⟨rfl, rfl, rfl, rfl⟩ trivial (hunlocked rfl) rfl fun q c hd => ?_
    exact dormant_of hd rfl rfl fun _ _ => sleepsOn_setProc (by simp [Entry.SleepsOn])
  | resume =>
    cases hrun
    refine h.idle hinv rfl ?_ (fun hin => by cases hin) ⟨rfl, rfl, rfl, rfl⟩ trivial (hunlocked rfl) rfl
      fun q c hd => ?_
    · simp [inTable, htable rfl]
    exact dormant_of hd rfl rfl fun _ _ => sleepsOn_setProc (by simp [Entry.SleepsOn])
  | copy =>
    cases hrun
    exact h.copy hcall
  | finish =>
    simp only [State.run, enabled_iff] at hrun
    obtain ⟨hfree, rfl⟩ := hrun
    exact h.wakeup hcall rfl rfl hfree trivial hinv
  | release r =>
    cases hrun
    refine h.pass_lock hinv rfl ?_ (fun hin => by cases hin) ⟨rfl, rfl, rfl, rfl⟩ trivial
      (hnobody rfl (by cases op <;> simp)) fun q c hd => ?_
    · simp [inTable, hplace rfl]
    · exact .inl (dormant_of hd rfl rfl fun _ _ hsleeps => hsleeps)

end Steps

/-- A process makes a call. -/
theorem Vigil.start (h : Vigil s) (hinv : Inv s') (hstart : s.start p op = some s') : Vigil s' := by
  simp only [State.start, enabled_iff] at hstart
  obtain ⟨hcall, rfl⟩ := hstart
  have hlock : s.lock ≠ some p := fun hlock => by
    have hholds := (h.inv.lock p).mp hlock
    rw [hcall] at hholds
    cases hholds
  have htable : s.ptable ≠ some p := h.ptable_ne (by rw [hcall]; rfl)
  refine h.idle hinv rfl ?_ (fun hin => by cases hin) ⟨rfl, rfl, rfl, rfl⟩ trivial hlock rfl fun q c hd => ?_
  · simp [inTable, htable]
  · exact dormant_of hd rfl rfl fun _ _ hsleeps => hsleeps

/-- A kill wakes up at most one process. -/
theorem Vigil.kill (h : Vigil s) (p : P) : Vigil { s with procs := kill s.procs p } := by
  have hsame : SamePipe s { s with procs := Proc.kill s.procs p } := ⟨rfl, rfl, rfl, rfl⟩
  refine { inv := h.inv.setProcs _ _, table := h.table, known := ?_, covered := ?_ }
  · exact fun q op point hcall => (hsame.known op point).mpr (h.known q op point hcall)
  · intro q c hdormant hready
    refine h.covered q c ?_ ((hsame.ready c).mp hready)
    exact hdormant.imp id sleepsOn_of_kill

theorem Vigil.step (h : Vigil s) (hstep : step s a = some (.ok s')) (hok : ¬Abandons s s') : Vigil s' := by
  have hinv := h.inv.step hstep
  cases a with
  | write p n addr | read p n | close p writable =>
    obtain ⟨t, hstart, ht⟩ := Option.map_eq_some_iff.mp hstep
    cases ht
    exact h.start hinv hstart
  | run p =>
    simp only [Pipe.step] at hstep
    cases hcall : s.calls p with
    | none => simp [hcall] at hstep
    | some call =>
      rw [hcall] at hstep
      obtain ⟨t, hrun, ht⟩ := Option.map_eq_some_iff.mp hstep
      cases ht
      exact h.run hcall hrun hok
  | kill p =>
    simp only [Pipe.step, enabled_iff] at hstep
    obtain ⟨-, hs⟩ := hstep
    cases hs
    exact h.kill p

omit [DecidableEq P] in
theorem Vigil.pipealloc {procs : P → Entry Chan} (hprocs : ∀ p c, ¬(procs p).SleepsOn c) (data : ℕ → UInt8) :
    Vigil (State.pipealloc procs data) where
  inv := .pipealloc procs data
  table p := by simp [State.pipealloc, inTable]
  known p op point hcall := by cases hcall
  covered q c hdormant := by
    rcases hdormant with hdoze | hsleeps
    · cases hdoze
    · exact absurd hsleeps (hprocs q c)

omit [DecidableEq P] in
theorem State.not_empty_of_full (h : s.full) : ¬s.empty := by
  intro hempty
  rw [State.full, ← hempty] at h
  have hsize : PIPESIZE = 0 := by simpa using h
  cases hsize

/-- A process goes on with its own call only. -/
theorem State.run_calls (hrun : s.run p op point = some s') (hq : q ≠ p) : s'.calls q = s.calls q := by
  cases point with
  | test =>
    cases hrun
    cases op <;> simp only [State.test] <;> split_ifs <;> exact update_of_ne hq ..
  | wait =>
    cases hrun
    cases op <;> simp only [State.wait] <;> split_ifs <;> exact update_of_ne hq ..
  | copy =>
    cases hrun
    cases op with
    | read n addr =>
      simp only [State.copy]
      split_ifs <;> exact update_of_ne hq ..
    | write n addr i places => exact update_of_ne hq ..
    | close writable => exact update_of_ne hq ..
  | acquire | rouse | sleep | asleep | finish =>
    simp only [State.run, enabled_iff] at hrun
    obtain ⟨-, rfl⟩ := hrun
    exact update_of_ne hq ..
  | unlock | sched | resume | release r =>
    cases hrun
    exact update_of_ne hq ..

omit [DecidableEq P] in
theorem exists_of_testsFull (h : testsFull call = true) :
    ∃ n addr i places, call = some (.write n addr i places, .wait) := by
  unfold testsFull at h
  split at h
  · exact ⟨_, _, _, _, rfl⟩
  · cases h

/-- The step in which a writer gives up on a full pipe is its own. -/
theorem eq_of_givesUp {n : ℤ} {addr : ℕ → UInt8} {i : ℕ} {places : List ℕ} (hstep : step s a = some (.ok s'))
    (hcall : s.calls p = some (.write n addr i places, .wait)) (hgives : givesUp (s'.calls p) = true) :
    s' = s.goto p (.write n addr i places) (.release (-1)) := by
  have hchanged : s'.calls p ≠ s.calls p := by
    intro heq
    rw [heq, hcall] at hgives
    cases hgives
  have hstart : ∀ q op, s.start q op ≠ some s' := by
    intro q op hstart
    simp only [State.start, enabled_iff] at hstart
    obtain ⟨hnone, rfl⟩ := hstart
    refine hchanged (update_of_ne ?_ ..)
    rintro rfl
    rw [hcall] at hnone
    cases hnone
  cases a with
  | write q n addr | read q n | close q writable => exact absurd (by simpa [Pipe.step] using hstep) (hstart q _)
  | run q =>
    simp only [Pipe.step] at hstep
    cases hq : s.calls q with
    | none => simp [hq] at hstep
    | some call =>
      rw [hq] at hstep
      obtain ⟨t, hrun, ht⟩ := Option.map_eq_some_iff.mp hstep
      cases ht
      by_cases hpq : p = q
      · subst hpq
        obtain rfl := Option.mem_unique hcall hq
        cases hrun
        simp only [State.wait] at hgives ⊢
        split_ifs at hgives ⊢
        · rfl
        · simp [givesUp] at hgives
      · exact absurd (State.run_calls hrun hpq) hchanged
  | kill q =>
    simp only [Pipe.step, enabled_iff] at hstep
    obtain ⟨-, hs⟩ := hstep
    cases hs
    exact absurd rfl hchanged

/-- A writer that gives up on a full pipe leaves a reader asleep with bytes to read. -/
theorem Vigil.abandoned (h : Vigil s) (hstep : Pipe.step s a = some (.ok s')) (habandons : Abandons s s') :
    ∃ trace t q, Run Pipe.step s' trace t ∧ t.lock = none ∧ (t.procs q).SleepsOn .nread ∧ ¬t.empty := by
  obtain ⟨p, htests, hgives, q, hdormant⟩ := habandons
  obtain ⟨n, addr, i, places, hcall⟩ := exists_of_testsFull htests
  obtain rfl := eq_of_givesUp hstep hcall hgives
  have hempty : ¬s.empty := State.not_empty_of_full (h.known p _ _ hcall)
  -- the writer releases the lock of the pipe and returns
  let t : State P := { s with
    lock := none
    calls := update (update s.calls p (some (.write n addr i places, .release (-1)))) p none
    returns := s.returns ++ [(.write n addr i places, -1)] }
  have hrelease : Run Pipe.step (s.goto p (.write n addr i places) (.release (-1))) [.run p] t := by
    refine Run.nil.snoc ?_
    simp only [Pipe.step, State.goto_calls, update_self]
    rfl
  rcases hdormant with hdoze | hsleeps
  · obtain ⟨op, hq, hchan⟩ := exists_of_dozing hdoze
    have hne : q ≠ p := by
      rintro rfl
      cases hcall.symm.trans hq
    -- a reader that has released the lock of the pipe goes to sleep
    have hcall : t.calls q = some (op, .sched) := by simp [t, hne, hq]
    have hsleep : Pipe.step t (.run q) = some (.ok (({ t with ptable := none }.setProc q
        { t.procs q with state := .SLEEPING, chan := some op.chan }).goto q op .asleep)) := by
      simp only [Pipe.step, hcall]
      rfl
    refine ⟨_, _, q, hrelease.snoc hsleep, rfl, ?_, hempty⟩
    simp [Entry.SleepsOn, hchan]
  · exact ⟨_, _, q, hrelease, rfl, hsleeps, hempty⟩

/-- Process 0 waits for a byte. -/
def waitingReader : List (Action (Fin 2)) := [.read 0 1] ++ List.replicate 6 (.run 0)

/-- Process 1 waits for a byte. Process 0 writes 512 bytes of 513, is killed, and returns. -/
def killedWriter : List (Action (Fin 2)) :=
  [Action.read 1 1] ++ List.replicate 6 (Action.run 1) ++ [Action.write 0 513 fun _ => 97] ++
    List.replicate 514 (Action.run 0) ++ [Action.kill 0] ++ List.replicate 2 (Action.run 0)

/-- Unless a writer gives up on a full pipe while a reader sleeps, no process sleeps that could go on when the lock of
the pipe is free. A writer that does so leaves a reader asleep with bytes to read. -/
theorem no_sleep_while_ready [Fintype P] {procs : P → Entry Chan} (hprocs : ∀ p c, ¬(procs p).SleepsOn c)
    (data : ℕ → UInt8) {trace : List (Action P)}
    (h : Run (restrict step fun s t => ¬Abandons s t) (State.pipealloc procs data) trace s) :
    (s.lock = none → ∀ q, ((s.procs q).SleepsOn .nread → s.empty ∧ s.writeopen = true) ∧
      ((s.procs q).SleepsOn .nwrite → s.full ∧ s.readopen = true)) ∧
    ∀ a s', step s a = some (.ok s') → Abandons s s' →
      ∃ trace t q, Run step s' trace t ∧ t.lock = none ∧ (t.procs q).SleepsOn .nread ∧ ¬t.empty := by
  have hvigil : Vigil s := by
    refine Run.invariant (P := fun _ u => Vigil u) (.pipealloc hprocs data) (fun _ _ t u _ ht hstep => ?_) h
    obtain ⟨hstep, hok⟩ := restrict_eq_ok.mp hstep
    exact ht.step hstep hok
  refine ⟨fun hlock q => ?_, fun a s' hstep habandons => hvigil.abandoned hstep habandons⟩
  have hready : ∀ c, (s.procs q).SleepsOn c → ¬s.Ready c := fun c hsleeps => by
    refine hvigil.not_ready (.inr hsleeps) fun holder op point hheld => ?_
    rw [hlock] at hheld
    cases hheld
  exact ⟨fun hsleeps => not_not.mp (hready .nread hsleeps), fun hsleeps => not_not.mp (hready .nwrite hsleeps)⟩

theorem no_sleep_while_ready_waiting_reader : ∃ s : State (Fin 2),
    Run (restrict step fun s t => ¬Abandons s t) (.pipealloc (fun _ => ⟨.RUNNING, none, false⟩) fun _ => 0)
      waitingReader s ∧
    s.lock = none ∧ (s.procs 0).SleepsOn .nread ∧ s.empty ∧ s.writeopen = true := by
  obtain ⟨s, hrun, hcheck⟩ := run_of_check (restrict step fun s t => ¬Abandons s t)
    (.pipealloc (fun _ => ⟨.RUNNING, none, false⟩) fun _ => 0) waitingReader
    (fun s => s.lock = none ∧ (s.procs 0).SleepsOn .nread) (by decide +kernel)
  obtain ⟨hlock, hsleeps⟩ := of_decide_eq_true hcheck
  have hclaim := no_sleep_while_ready (fun _ _ h => by cases h.1) (fun _ => 0) hrun
  exact ⟨s, hrun, hlock, hsleeps, (hclaim.1 hlock 0).1 hsleeps⟩

/-- A reader sleeps on a full pipe that nobody uses. -/
theorem killed_writer_leaves_reader_asleep :
    ∃ s, Run step (.pipealloc (fun _ => ⟨.RUNNING, none, false⟩) fun _ => 0) killedWriter s ∧
      s.lock = none ∧ (s.procs 1).SleepsOn .nread ∧ s.full ∧ ¬s.empty := by
  exact exists_run (by decide +kernel)

end Xv6.Pipe
