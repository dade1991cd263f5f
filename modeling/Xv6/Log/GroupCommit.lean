import Xv6.Log.Crash

/-!
# Group commit by any number of processes

Processes begin operations, log blocks and end operations in any order. Each of `begin_op`,
`log_write` and `end_op` is one step at the granularity of `log.lock`; a process that may
not begin sleeps on the log and tests again when it is woken. `commit` runs outside the
lock, one disk write a step, interleaved with whatever the other processes can do.

A process changes a buffer while it holds the buffer and then calls `log_write`, so the
changed contents and the recording of the block are one action here. So are the tests of
`log_write` and its locked section; `Xv6.Log.Capacity` takes them apart.
-/

namespace Xv6

open Lib
open Function (update update_self update_of_ne)

/-- Where a process is inside `commit()`; every step makes one disk write. -/
inductive CommitPc where
  | writeLog (tail : ℕ)
  | installTrans (tail : ℕ)
  | done
  deriving DecidableEq, Repr

/-- Where a process is with respect to the log. -/
inductive Pc where
  | outside
  | asleep
  | woken
  | inOp
  | committing (at_ : CommitPc)
  deriving DecidableEq, Repr

namespace Log

/-- The test of `begin_op`: admit the operation, or `none` when the caller must sleep. -/
def beginOp (log : Log) : Option Log :=
  if log.committing then none
  else if log.lh.length + (log.outstanding + 1) * MAXOPBLOCKS > (LOGSIZE : ℤ) then none
  else some { log with outstanding := log.outstanding + 1 }

/-- The first locked section of `end_op`, and whether the caller must commit. -/
def endOp (log : Log) : Except Panic (Log × Bool) :=
  let log := { log with outstanding := log.outstanding - 1 }
  if log.committing then .error "log.committing"
  else if log.outstanding = 0 then .ok ({ log with committing := true }, true)
  else .ok (log, false)

/-- The first step of `commit`, which does nothing for an empty transaction. -/
def commitEntry (log : Log) : CommitPc :=
  if log.lh.length > 0 then .writeLog 0 else .done

/-- One disk write of `commit`, and where it leaves the committing process. -/
def commitStep (log : Log) (m : Machine) : CommitPc → Option (Log × Machine × CommitPc)
  | .writeLog tail =>
    if h : tail < log.lh.length then
      some (log, m.bwrite (log.start + tail + 1) (m.bread log.lh[tail]), .writeLog (tail + 1))
    else some (log, log.writeHead m, .installTrans 0)
  | .installTrans tail =>
    if h : tail < log.lh.length then
      some (log, m.bwrite log.lh[tail] (m.bread (log.start + tail + 1)), .installTrans (tail + 1))
    else
      let log := { log with lh := [] }
      some (log, log.writeHead m, .done)
  | .done => none

/-- The rest of `commit`, run alone from a given step on. -/
def finishCommit (log : Log) (m : Machine) : CommitPc → Log × Machine
  | .writeLog tail =>
    let m := log.writeHead (writeLogLoop log m tail (log.lh.drop tail))
    let m := log.installTrans m
    let log := { log with lh := [] }
    (log, log.writeHead m)
  | .installTrans tail =>
    let m := installTransLoop log m tail (log.lh.drop tail)
    let log := { log with lh := [] }
    (log, log.writeHead m)
  | .done => (log, m)

/-- Run alone from its first step, `commit` is the function of that name. -/
theorem finishCommit_entry (log : Log) (m : Machine) : log.finishCommit m log.commitEntry = log.commit m := by
  unfold commitEntry commit
  split
  · simp only [finishCommit, List.drop_zero, writeLog]
  · rfl

variable {log log' : Log} {m m' : Machine} {pc pc' : CommitPc}

/-- One disk write brings the rest of `commit` no further from its result. -/
theorem finishCommit_step (h : log.commitStep m pc = some (log', m', pc')) :
    log'.finishCommit m' pc' = log.finishCommit m pc := by
  cases pc with
  | writeLog tail =>
    simp only [commitStep] at h
    split at h
    · next htail =>
      cases h
      simp only [finishCommit, List.drop_eq_getElem_cons htail, writeLogLoop]
    · next htail =>
      cases h
      simp only [finishCommit, List.drop_eq_nil_of_le (not_lt.mp htail), writeLogLoop,
        List.drop_zero, installTrans]
  | installTrans tail =>
    simp only [commitStep] at h
    split at h
    · next htail =>
      cases h
      simp only [finishCommit, List.drop_eq_getElem_cons htail, installTransLoop]
    · next htail =>
      cases h
      simp only [finishCommit, List.drop_eq_nil_of_le (not_lt.mp htail), installTransLoop]
  | done => cases h

/-- `commit` changes only the header list, which it empties at its last write. -/
theorem commitStep_log (h : log.commitStep m pc = some (log', m', pc')) :
    log' = log ∧ pc' ≠ .done ∨ log' = { log with lh := [] } ∧ pc' = .done := by
  cases pc with
  | writeLog tail =>
    simp only [commitStep] at h
    split at h <;> cases h <;> exact .inl ⟨rfl, by simp⟩
  | installTrans tail =>
    simp only [commitStep] at h
    split at h <;> cases h
    · exact .inl ⟨rfl, by simp⟩
    · exact .inr ⟨rfl, rfl⟩
  | done => cases h

end Log

/-- The log, the machine under it and every process. -/
structure GroupState (P : Type*) where
  log : Log
  m : Machine
  pc : P → Pc

/-- The steps of the processes that use the log. -/
inductive Act (P : Type*) where
  | beginOp (p : P)
  | beginSleep (p : P)
  | logWrite (p : P) (b : ℕ) (data : Block)
  | endOp (p : P)
  | commitStep (p : P)
  | endCommit (p : P)

namespace GroupState

variable {P : Type*} [DecidableEq P]

/-- `wakeup(&log)`: every process asleep on the log will test again. -/
def wakeup (pc : P → Pc) : P → Pc := fun p => if pc p = .asleep then .woken else pc p

/-- One step of the system: `none` when it is not enabled, an error when it panics. -/
def step (s : GroupState P) : Act P → Option (Except Panic (GroupState P))
  | .beginOp p =>
    if s.pc p = .outside ∨ s.pc p = .woken then
      s.log.beginOp.map fun log => .ok { s with log, pc := update s.pc p .inOp }
    else none
  | .beginSleep p =>
    if (s.pc p = .outside ∨ s.pc p = .woken) ∧ s.log.beginOp = none then
      some (.ok { s with pc := update s.pc p .asleep })
    else none
  | .logWrite p b data =>
    if s.pc p = .inOp ∧ b < 2 ^ 32 ∧ ¬ s.log.area b then
      match s.log.logWrite b with
      | .error e => some (.error e)
      | .ok log => some (.ok { s with log, m := { s.m with buf := update s.m.buf b data } })
    else none
  | .endOp p =>
    if s.pc p = .inOp then
      match s.log.endOp with
      | .error e => some (.error e)
      | .ok (log, true) =>
        some (.ok { s with log, pc := update s.pc p (.committing log.commitEntry) })
      | .ok (log, false) =>
        some (.ok { s with log, pc := update (wakeup s.pc) p .outside })
    else none
  | .commitStep p =>
    match s.pc p with
    | .committing pc =>
      (s.log.commitStep s.m pc).map fun (log, m, pc) =>
        .ok { log, m, pc := update s.pc p (.committing pc) }
    | _ => none
  | .endCommit p =>
    if s.pc p = .committing .done then
      some (.ok { s with
        log := { s.log with committing := false }
        pc := update (wakeup s.pc) p .outside })
    else none

/-- No operation has begun and the log is empty. -/
def init (start size : ℕ) (buf disk : ℕ → Block) : GroupState P where
  log := ⟨start, size, 0, false, []⟩
  m := ⟨buf, disk, []⟩
  pc := fun _ => .outside

attribute [local simp] init

/-- What each step that succeeds requires and does; what the tests of `log_write` require is left out. -/
inductive Step (s : GroupState P) : Act P → GroupState P → Prop
  | beginOp (p : P) (hpc : s.pc p = .outside ∨ s.pc p = .woken) (hidle : s.log.committing = false)
      (hroom : s.log.lh.length + (s.log.outstanding + 1) * MAXOPBLOCKS ≤ (LOGSIZE : ℤ)) :
      Step s (.beginOp p) { s with
        log := { s.log with outstanding := s.log.outstanding + 1 }
        pc := update s.pc p .inOp }
  | beginSleep (p : P) (hpc : s.pc p = .outside ∨ s.pc p = .woken) :
      Step s (.beginSleep p) { s with pc := update s.pc p .asleep }
  | logWrite (p : P) (b : ℕ) (data : Block) (hpc : s.pc p = .inOp) (hb : b < 2 ^ 32) (hhome : ¬ s.log.area b) :
      Step s (.logWrite p b data) { s with
        log := s.log.logAppend b
        m := { s.m with buf := update s.m.buf b data } }
  | endOp (p : P) (hpc : s.pc p = .inOp) (hidle : s.log.committing = false)
      (hmore : s.log.outstanding - 1 ≠ 0) :
      Step s (.endOp p) { s with
        log := { s.log with outstanding := s.log.outstanding - 1 }
        pc := update (wakeup s.pc) p .outside }
  | startCommit (p : P) (hpc : s.pc p = .inOp) (hidle : s.log.committing = false)
      (hlast : s.log.outstanding - 1 = 0) :
      Step s (.endOp p) { s with
        log := { s.log with outstanding := s.log.outstanding - 1, committing := true }
        pc := update s.pc p (.committing s.log.commitEntry) }
  | commitStep (p : P) (pc pc' : CommitPc) (log : Log) (m : Machine) (hpc : s.pc p = .committing pc)
      (hstep : s.log.commitStep s.m pc = some (log, m, pc')) :
      Step s (.commitStep p) { log, m, pc := update s.pc p (.committing pc') }
  | endCommit (p : P) (hpc : s.pc p = .committing .done) :
      Step s (.endCommit p) { s with
        log := { s.log with committing := false }
        pc := update (wakeup s.pc) p .outside }

variable {s s' : GroupState P} {a : Act P} {p : P} {trace : List (Act P)}

/-- Every successful step is one of the listed ones. -/
theorem step_ok (h : s.step a = some (.ok s')) : Step s a s' := by
  cases a with
  | beginOp p =>
    simp only [step] at h
    split_ifs at h with hpc
    obtain ⟨log, hlog, heq⟩ := Option.map_eq_some_iff.mp h
    cases heq
    unfold Log.beginOp at hlog
    split_ifs at hlog with hidle hroom
    cases hlog
    exact .beginOp p hpc (by simpa using hidle) (by omega)
  | beginSleep p =>
    simp only [step] at h
    split_ifs at h with hpc
    cases h
    exact .beginSleep p hpc.1
  | logWrite p b data =>
    simp only [step] at h
    split_ifs at h with hpc
    split at h
    · cases h
    · next log hlog =>
      cases h
      obtain ⟨-, rfl⟩ := Log.logWrite_ok hlog
      exact .logWrite p b data hpc.1 hpc.2.1 hpc.2.2
  | endOp p =>
    simp only [step] at h
    split_ifs at h with hpc
    split at h
    · cases h
    · next log hlog =>
      cases h
      simp only [Log.endOp] at hlog
      split at hlog
      · cases hlog
      next hidle =>
      split at hlog
      · next hlast =>
        cases hlog
        exact .startCommit p hpc (by simpa using hidle) hlast
      · cases hlog
    · next log hlog =>
      cases h
      simp only [Log.endOp] at hlog
      split at hlog
      · cases hlog
      next hidle =>
      split at hlog
      · cases hlog
      · next hmore =>
        cases hlog
        exact .endOp p hpc (by simpa using hidle) hmore
  | commitStep p =>
    simp only [step] at h
    split at h
    · next pc hpc =>
      obtain ⟨⟨log, m, pc'⟩, hstep, heq⟩ := Option.map_eq_some_iff.mp h
      cases heq
      exact .commitStep p pc pc' log m hpc hstep
    · cases h
  | endCommit p =>
    simp only [step] at h
    split_ifs at h with hpc
    cases h
    exact .endCommit p hpc

/-- What holds between any two steps. -/
structure Inv (s : GroupState P) : Prop where
  /-- `outstanding` counts the processes inside an operation. -/
  outstanding : ∃ ops : Finset P, (∀ p, p ∈ ops ↔ s.pc p = .inOp) ∧ s.log.outstanding = ops.card
  /-- `committing` is set exactly while some process runs `commit`. -/
  committing : s.log.committing = true ↔ ∃ p pc, s.pc p = .committing pc
  /-- At most one process runs `commit`. -/
  alone : ∀ p q pc pc', s.pc p = .committing pc → s.pc q = .committing pc' → p = q
  /-- No process is inside an operation during a commit. -/
  quiet : s.log.committing = true → ∀ p, s.pc p ≠ .inOp

variable {pc : P → Pc} {start size : ℕ} {buf disk : ℕ → Block}

omit [DecidableEq P] in
theorem wakeup_eq_inOp : wakeup pc p = .inOp ↔ pc p = .inOp := by
  unfold wakeup
  split <;> simp_all

omit [DecidableEq P] in
theorem wakeup_eq_committing {c : CommitPc} : wakeup pc p = .committing c ↔ pc p = .committing c := by
  unfold wakeup
  split <;> simp_all

omit [DecidableEq P] in
/-- While `committing` is clear no process runs `commit`. -/
theorem Inv.not_committing (hi : Inv s) (hidle : s.log.committing = false)
    (p : P) (pc : CommitPc) : s.pc p ≠ .committing pc := by
  intro hpc
  have := hi.committing.mpr ⟨p, pc, hpc⟩
  simp [hidle] at this

/-- So many processes are inside an operation. -/
def Counted (pc : P → Pc) (n : ℤ) : Prop := ∃ ops : Finset P, (∀ p, p ∈ ops ↔ pc p = .inOp) ∧ n = ops.card

/-- A process that enters an operation is counted. -/
theorem Inv.outstanding_insert (hi : Inv s) (hp : s.pc p ≠ .inOp) :
    Counted (update s.pc p .inOp) (s.log.outstanding + 1) := by
  obtain ⟨ops, hmem, hcard⟩ := hi.outstanding
  refine ⟨insert p ops, ?_, ?_⟩
  · intro q
    by_cases hq : q = p
    · subst hq
      simp
    · simp [hq, hmem]
  · rw [Finset.card_insert_of_notMem fun h => hp ((hmem p).mp h), hcard]
    simp

/-- A process that leaves an operation is no longer counted. -/
theorem Inv.outstanding_erase (hi : Inv s) (hp : s.pc p = .inOp) (hpc : ∀ q, pc q = .inOp ↔ q ≠ p ∧ s.pc q = .inOp) :
    Counted pc (s.log.outstanding - 1) := by
  obtain ⟨ops, hmem, hcard⟩ := hi.outstanding
  refine ⟨ops.erase p, ?_, ?_⟩
  · intro q
    rw [Finset.mem_erase, hmem, hpc]
  · have hin : p ∈ ops := (hmem p).mpr hp
    have hpos : 0 < ops.card := Finset.card_pos.mpr ⟨p, hin⟩
    rw [Finset.card_erase_of_mem hin, hcard]
    omega

omit [DecidableEq P] in
/-- A step that moves no process into or out of an operation keeps the count. -/
theorem Inv.outstanding_congr (hi : Inv s) (hpc : ∀ q, pc q = .inOp ↔ s.pc q = .inOp) :
    Counted pc s.log.outstanding := by
  obtain ⟨ops, hmem, hcard⟩ := hi.outstanding
  exact ⟨ops, fun q => (hmem q).trans (hpc q).symm, hcard⟩

omit [DecidableEq P] in
/-- No process is inside an operation while one commits. -/
theorem Inv.idle_of_inOp (hi : Inv s) (hp : s.pc p = .inOp) : s.log.committing = false := by
  by_contra hcom
  exact hi.quiet (by simpa using hcom) p hp

omit [DecidableEq P] in
/-- A process inside an operation is counted. -/
theorem Inv.one_le_outstanding (hi : Inv s) (hp : s.pc p = .inOp) : 1 ≤ s.log.outstanding := by
  obtain ⟨ops, hmem, hcard⟩ := hi.outstanding
  have hpos : 0 < ops.card := Finset.card_pos.mpr ⟨p, (hmem p).mpr hp⟩
  omega

omit [DecidableEq P] in
/-- The invariant while no process commits. -/
theorem Inv.idle (hcount : Counted s.pc s.log.outstanding) (hidle : s.log.committing = false)
    (hnone : ∀ p pc, s.pc p ≠ .committing pc) : Inv s where
  outstanding := hcount
  committing := by simp [hidle, hnone]
  alone p _ pc _ hp := absurd hp (hnone p pc)
  quiet := by simp [hidle]

omit [DecidableEq P] in
/-- The invariant while one process commits. -/
theorem Inv.busy {pc : CommitPc} (hcount : Counted s.pc s.log.outstanding) (hcom : s.log.committing = true)
    (hpc : s.pc p = .committing pc) (honly : ∀ q c, q ≠ p → s.pc q ≠ .committing c)
    (hquiet : ∀ q, s.pc q ≠ .inOp) : Inv s where
  outstanding := hcount
  committing := ⟨fun _ => ⟨p, pc, hpc⟩, fun _ => hcom⟩
  alone q r c c' hq hr := (not_imp_not.mp (honly q c) hq).trans (not_imp_not.mp (honly r c') hr).symm
  quiet _ := hquiet

/-- Every step keeps the invariant. -/
theorem Step.inv (h : Step s a s') (hi : Inv s) : Inv s' := by
  cases h with
  | beginOp p hpc hidle hroom =>
    have hp : s.pc p ≠ .inOp := by
      obtain hpc | hpc := hpc <;> simp [hpc]
    refine .idle (hi.outstanding_insert hp) hidle fun q pc hq => ?_
    exact hi.not_committing hidle q pc ((update_eq_iff (by nofun)).mp hq).2
  | beginSleep p hpc =>
    have hop (q : P) : update s.pc p .asleep q = .inOp ↔ s.pc q = .inOp :=
      update_eq_iff_of_ne nofun (by obtain hpc | hpc := hpc <;> simp [hpc])
    have hcommit (q : P) (pc : CommitPc) : update s.pc p .asleep q = .committing pc ↔ s.pc q = .committing pc :=
      update_eq_iff_of_ne nofun (by obtain hpc | hpc := hpc <;> simp [hpc])
    exact {
      outstanding := hi.outstanding_congr hop
      committing := by simpa only [hcommit] using hi.committing
      alone := by simpa only [hcommit] using hi.alone
      quiet := by simpa only [ne_eq, hop] using hi.quiet }
  | logWrite p b data hpc hb hhome => exact ⟨hi.outstanding, hi.committing, hi.alone, hi.quiet⟩
  | endOp p hpc hidle hmore =>
    refine .idle (hi.outstanding_erase hpc fun q => ?_) hidle fun q pc hq => ?_
    · exact (update_eq_iff (by nofun)).trans (and_congr_right' wakeup_eq_inOp)
    · exact hi.not_committing hidle q pc (wakeup_eq_committing.mp ((update_eq_iff (by nofun)).mp hq).2)
  | startCommit p hpc hidle hlast =>
    have hop (q : P) : update s.pc p (.committing s.log.commitEntry) q = .inOp ↔ q ≠ p ∧ s.pc q = .inOp :=
      update_eq_iff nofun
    obtain ⟨ops, hmem, hcard⟩ := hi.outstanding_erase hpc hop
    refine .busy ⟨ops, hmem, hcard⟩ rfl (update_self ..) (fun q c hq hc => ?_) fun q hq => ?_
    · exact hi.not_committing hidle q c ((update_of_ne hq ..).symm.trans hc)
    · have hempty : ops = ∅ := by
        rw [← Finset.card_eq_zero]
        omega
      simpa [hempty] using (hmem q).mpr hq
  | commitStep p pc pc' log m hpc hstep =>
    have hcom : s.log.committing = true := hi.committing.mpr ⟨p, pc, hpc⟩
    have hop (q : P) : update s.pc p (.committing pc') q = .inOp ↔ s.pc q = .inOp :=
      update_eq_iff_of_ne nofun (by simp [hpc])
    have hlog : log.outstanding = s.log.outstanding ∧ log.committing = true := by
      obtain ⟨rfl, -⟩ | ⟨rfl, -⟩ := Log.commitStep_log hstep <;> exact ⟨rfl, hcom⟩
    refine .busy (by simpa only [hlog.1] using hi.outstanding_congr hop) hlog.2 (update_self ..)
      (fun q c hq hc => ?_) fun q hq => hi.quiet hcom q ((hop q).mp hq)
    exact hq (hi.alone q p c pc ((update_of_ne hq ..).symm.trans hc) hpc)
  | endCommit p hpc =>
    refine .idle (hi.outstanding_congr fun q => ?_) rfl fun q pc hq => ?_
    · exact (update_eq_iff_of_ne (by nofun) (by simp [wakeup_eq_inOp, hpc])).trans wakeup_eq_inOp
    · obtain ⟨hne, hq⟩ := (update_eq_iff (by nofun)).mp hq
      exact hne (hi.alone q p pc .done (wakeup_eq_committing.mp hq) hpc)

omit [DecidableEq P] in
/-- Before the first step. -/
theorem inv_init : Inv (init start size buf disk : GroupState P) where
  outstanding := ⟨∅, by simp, by simp⟩
  committing := by simp
  alone := by simp
  quiet := by simp

/-- The invariant holds in every reachable state. -/
theorem inv_of_run (h : Run step (init start size buf disk) trace s) : Inv s :=
  h.invariant (P := fun _ s => Inv s) inv_init fun _ _ _ _ _ hi hs => (step_ok hs).inv hi

/-- The header list stays well formed when every `log_write` passes its tests and lists its block in one step. -/
theorem header_of_run (h : Run step (init start size buf disk) trace s) : s.log.HeaderOk := by
  refine h.invariant (P := fun _ s => s.log.HeaderOk) ⟨by simp, .inr rfl, by simp⟩ ?_
  intro _ a t u _ ht hs
  cases step_ok hs with
  | logWrite p b data hpc hb hhome =>
    have htest : t.log.logTest = .ok () := by
      simp only [step, if_pos (⟨hpc, hb, hhome⟩ : t.pc p = .inOp ∧ b < 2 ^ 32 ∧ ¬ t.log.area b)] at hs
      split at hs
      · cases hs
      · next log hlog => exact (Log.logWrite_ok hlog).1
    exact ht.logAppend hb hhome htest
  | commitStep p pc pc' log m hpc hstep =>
    obtain ⟨rfl, -⟩ | ⟨rfl, -⟩ := Log.commitStep_log hstep
    · exact ht
    · exact ⟨by simp, .inr rfl, by simp⟩
  | beginSleep => exact ht
  | _ => exact ⟨ht.fits, ht.room, ht.home⟩

/-! ### What a commit contains -/

/-- The actions since the last commit ended. -/
def sinceCommit (trace : List (Act P)) : List (Act P) :=
  trace.foldl (fun recent a => match a with
    | .endCommit _ => []
    | a => recent ++ [a]) []

/-- The contents of block `b` after the last `log_write` of it among the actions. -/
def lastLogged (actions : List (Act P)) (b : ℕ) : Option Block :=
  actions.foldl (fun last a => match a with
    | .logWrite _ c data => if c = b then some data else last
    | _ => last) none

omit [DecidableEq P] in
theorem sinceCommit_append (trace : List (Act P)) (a : Act P) : sinceCommit (trace ++ [a]) = (match a with
      | .endCommit _ => []
      | a => sinceCommit trace ++ [a]) := by
  simp only [sinceCommit, List.foldl_append, List.foldl_cons, List.foldl_nil]

omit [DecidableEq P] in
/-- The recent actions are what follows the last end of a commit. -/
theorem sinceCommit_suffix (trace : List (Act P)) :
    ∃ past, trace = past ++ sinceCommit trace ∧ (∀ q, .endCommit q ∉ sinceCommit trace) ∧
      (past = [] ∨ ∃ q, past.getLast? = some (.endCommit q)) := by
  induction trace using List.reverseRecOn with
  | nil => exact ⟨[], rfl, by simp [sinceCommit], .inl rfl⟩
  | append_singleton trace a ih =>
    obtain ⟨past, heq, hnone, hpast⟩ := ih
    have hsnoc := sinceCommit_append trace a
    cases a with
    | endCommit q => exact ⟨trace ++ [.endCommit q], by simp [hsnoc], by simp [hsnoc], .inr ⟨q, by simp⟩⟩
    | _ =>
      refine ⟨past, ?_, ?_, hpast⟩
      · rw [hsnoc, ← List.append_assoc, ← heq]
      · simpa [hsnoc] using hnone

omit [DecidableEq P] in
theorem lastLogged_append (actions : List (Act P)) (a : Act P) (b : ℕ) : lastLogged (actions ++ [a]) b = (match a with
      | .logWrite _ c data => if c = b then some data else lastLogged actions b
      | _ => lastLogged actions b) := by
  simp only [lastLogged, List.foldl_append, List.foldl_cons, List.foldl_nil]

/-- The header lists exactly the blocks logged by the actions, and the cache holds their
last logged contents. -/
structure Recorded (actions : List (Act P)) (s : GroupState P) : Prop where
  nodup : s.log.lh.Nodup
  mem : ∀ b, b ∈ s.log.lh ↔ (lastLogged actions b).isSome
  contents : ∀ b data, lastLogged actions b = some data → s.m.buf b = data

/-- Between commits the header records the recent actions; a finished commit has emptied it. -/
structure History (trace : List (Act P)) (s : GroupState P) : Prop where
  idle : s.log.committing = false → Recorded (sinceCommit trace) s
  done : ∀ p, s.pc p = .committing .done → s.log.lh = []

omit [DecidableEq P] in
/-- A step that logs no block and ends no commit. -/
theorem History.keep (hh : History trace s)
    (ha : ∀ b, lastLogged (sinceCommit (trace ++ [a])) b = lastLogged (sinceCommit trace) b)
    (hlh : s'.log.lh = s.log.lh) (hbuf : s'.m.buf = s.m.buf)
    (hidle : s'.log.committing = false → s.log.committing = false)
    (hdone : ∀ p, s'.pc p = .committing .done → s.pc p = .committing .done) : History (trace ++ [a]) s' := by
  refine ⟨fun hcom => ?_, fun p hp => hlh.trans (hh.done p (hdone p hp))⟩
  obtain ⟨hnodup, hmem, hcontents⟩ := hh.idle (hidle hcom)
  exact ⟨hlh ▸ hnodup, by simpa only [hlh, ha] using hmem, by simpa only [hbuf, ha] using hcontents⟩

theorem Step.history (h : Step s a s') (hi : Inv s) (hh : History trace s) : History (trace ++ [a]) s' := by
  cases h with
  | beginOp p hpc hidle hroom | beginSleep p hpc =>
    exact hh.keep (fun b => by rw [sinceCommit_append, lastLogged_append]) rfl rfl id
      fun q hq => ((update_eq_iff (by nofun)).mp hq).2
  | logWrite p b data hpc hb hhome =>
    have hidle := hi.idle_of_inOp hpc
    have hrec := hh.idle hidle
    refine ⟨fun _ => ⟨?_, ?_, ?_⟩, fun q hq => absurd hq (hi.not_committing hidle q .done)⟩
    · by_cases hmem : b ∈ s.log.lh
      · simpa only [Log.logAppend, if_pos hmem] using hrec.nodup
      · simp only [Log.logAppend, if_neg hmem]
        exact List.nodup_append.mpr ⟨hrec.nodup, by simp, by rintro c hc _ (⟨_⟩ | ⟨_, ⟨⟩⟩) rfl; exact hmem hc⟩
    · intro c
      simp only [sinceCommit_append, lastLogged_append, Log.mem_logAppend]
      by_cases hcb : b = c
      · simp [hcb]
      · simp [hcb, hrec.mem c, Ne.symm hcb]
    · intro c value hvalue
      simp only [sinceCommit_append, lastLogged_append] at hvalue
      by_cases hcb : b = c
      · subst hcb
        simpa using hvalue
      · rw [if_neg hcb] at hvalue
        simpa [Ne.symm hcb] using hrec.contents c value hvalue
  | endOp p hpc hidle hmore =>
    exact hh.keep (fun b => by rw [sinceCommit_append, lastLogged_append]) rfl rfl id
      fun q hq => wakeup_eq_committing.mp ((update_eq_iff (by nofun)).mp hq).2
  | startCommit p hpc hidle hlast =>
    refine ⟨by simp, ?_⟩
    intro q hq
    by_cases hqp : q = p
    · subst hqp
      simp only [update_self, Log.commitEntry, Pc.committing.injEq] at hq
      split_ifs at hq with hempty
      simpa using hempty
    · exact absurd (by simpa [hqp] using hq) (hi.not_committing hidle q .done)
  | commitStep p pc pc' log m hpc hstep =>
    have hcom : s.log.committing = true := hi.committing.mpr ⟨p, pc, hpc⟩
    obtain ⟨rfl, hpc'⟩ | ⟨rfl, rfl⟩ := Log.commitStep_log hstep
    · refine ⟨by simp [hcom], ?_⟩
      intro q hq
      by_cases hqp : q = p
      · subst hqp
        exact absurd (by simpa using hq) hpc'
      · exact absurd (hi.alone q p .done pc (by simpa [hqp] using hq) hpc) hqp
    · exact ⟨by simp [hcom], fun _ _ => rfl⟩
  | endCommit p hpc =>
    have hempty := hh.done p hpc
    refine ⟨fun _ => ⟨by simp [hempty], ?_, ?_⟩, fun _ _ => hempty⟩
    · simp [hempty, sinceCommit_append, lastLogged]
    · simp [sinceCommit_append, lastLogged]

omit [DecidableEq P] in
theorem history_init : History [] (init start size buf disk : GroupState P) :=
  ⟨fun _ => ⟨by simp, by simp [sinceCommit, lastLogged], by simp [sinceCommit, lastLogged]⟩, fun _ _ => rfl⟩

/-- Every reachable state records its recent history. -/
theorem history_of_run (h : Run step (init start size buf disk) trace s) : History trace s :=
  h.invariant history_init fun _ _ _ _ hrun hh hs => (step_ok hs).history (inv_of_run hrun) hh

/-- Only its own `end_op` takes a process out of an operation. -/
theorem Step.inOp (h : Step s a s') (hin : s.pc p = .inOp) (ha : a ≠ .endOp p) : s'.pc p = .inOp := by
  cases h with
  | beginOp q hpc => by_cases hq : p = q <;> simp [hq, hin]
  | beginSleep q hpc | commitStep q pc pc' log m hpc =>
    have hq : p ≠ q := by
      rintro rfl
      simp [hin] at hpc
    simpa [hq] using hin
  | logWrite => exact hin
  | endOp q =>
    have hq : p ≠ q := fun heq => ha (heq ▸ rfl)
    simpa [hq, wakeup_eq_inOp] using hin
  | startCommit q =>
    have hq : p ≠ q := fun heq => ha (heq ▸ rfl)
    simpa [hq] using hin
  | endCommit q hpc =>
    have hq : p ≠ q := by
      rintro rfl
      simp [hin] at hpc
    simpa [hq, wakeup_eq_inOp] using hin

/-- A process that began an operation and has not ended it is inside it. -/
theorem inOp_of_begun {s₀ : GroupState P} (h : Run step s₀ trace s) (p : P) (before after : List (Act P))
    (htrace : trace = before ++ .beginOp p :: after) (hend : .endOp p ∉ after) : s.pc p = .inOp := by
  induction h generalizing after with
  | nil => simp at htrace
  | @snoc trace a t u hrun hs ih =>
    cases after using List.reverseRecOn with
    | nil =>
      obtain ⟨-, rfl⟩ : trace = before ∧ a = .beginOp p := by simpa using List.append_inj' htrace rfl
      cases step_ok hs
      simp
    | append_singleton rest b =>
      rw [← List.cons_append, ← List.append_assoc] at htrace
      obtain ⟨hrest, hab⟩ := List.append_inj' htrace rfl
      obtain rfl : a = b := by simpa using hab
      simp only [List.mem_append, List.mem_singleton, not_or] at hend
      exact (step_ok hs).inOp (ih rest hrest hend.1) (Ne.symm hend.2)

/-- Until a commit ends, only its own steps move it, towards the result it has run alone. -/
theorem commit_in_progress {s₁ s₂ : GroupState P} {pc₁ : CommitPc} {during : List (Act P)} (hi : Inv s₁)
    (hpc₁ : s₁.pc p = .committing pc₁) (hrun : Run step s₁ during s₂) (hno : ∀ q, .endCommit q ∉ during) :
    ∃ pc₂, s₂.pc p = .committing pc₂ ∧ s₂.log.finishCommit s₂.m pc₂ = s₁.log.finishCommit s₁.m pc₁ := by
  have key : Inv s₂ ∧ ((∀ q, .endCommit q ∉ during) → ∃ pc₂, s₂.pc p = .committing pc₂ ∧
      s₂.log.finishCommit s₂.m pc₂ = s₁.log.finishCommit s₁.m pc₁) := by
    refine hrun.invariant (P := fun during s => Inv s ∧ ((∀ q, .endCommit q ∉ during) → ∃ pc₂,
      s.pc p = .committing pc₂ ∧ s.log.finishCommit s.m pc₂ = s₁.log.finishCommit s₁.m pc₁))
      ⟨hi, fun _ => ⟨pc₁, hpc₁, rfl⟩⟩ ?_
    rintro trace a t u - ⟨hit, ht⟩ hs
    refine ⟨(step_ok hs).inv hit, ?_⟩
    intro hno
    simp only [List.mem_append, List.mem_singleton, not_or] at hno
    obtain ⟨pc, hpc, hfinish⟩ := ht fun q => (hno q).1
    have hcom : t.log.committing = true := hit.committing.mpr ⟨p, pc, hpc⟩
    cases step_ok hs with
    | beginOp q hq hidle => simp [hidle] at hcom
    | beginSleep q hq =>
      have hne : p ≠ q := by
        rintro rfl
        simp [hpc] at hq
      exact ⟨pc, by simpa [hne] using hpc, hfinish⟩
    | logWrite q b data hq | endOp q hq | startCommit q hq => exact absurd hq (hit.quiet hcom q)
    | commitStep q pc' pc'' log m hq hstep =>
      obtain rfl := hit.alone p q pc pc' hpc hq
      obtain rfl : pc = pc' := by simpa [hpc] using hq
      exact ⟨pc'', by simp, (Log.finishCommit_step hstep).trans hfinish⟩
    | endCommit q hq => exact absurd rfl (hno q).2
  exact key.2 hno

/-- No process can log a block while a commit runs. -/
theorem not_logWrite_of_committing (hi : Inv s) (hcom : s.log.committing = true)
    (p : P) (b : ℕ) (data : Block) : s.step (.logWrite p b data) = none := by
  simp only [step]
  rw [if_neg]
  exact fun h => hi.quiet hcom p h.1

/-- The only panic a step can reach is that of a `log_write` made inside an operation. -/
theorem step_error (hi : Inv s) {e : Panic} (h : s.step a = some (.error e)) : e = "too big a transaction" ∧
      ∃ p b data, a = .logWrite p b data ∧ s.pc p = .inOp ∧ b < 2 ^ 32 ∧ ¬ s.log.area b ∧
        s.log.logWrite b = .error e := by
  cases a with
  | beginOp p | commitStep p =>
    simp only [step] at h
    split at h
    · simp at h
    · cases h
  | beginSleep p | endCommit p =>
    simp only [step] at h
    split at h <;> cases h
  | logWrite p b data =>
    simp only [step] at h
    split_ifs at h with hpc
    have hop := hi.one_le_outstanding hpc.1
    split at h
    · next e' hlog =>
      cases h
      refine ⟨?_, p, b, data, rfl, hpc.1, hpc.2.1, hpc.2.2, hlog⟩
      exact ((Log.logTest_error hop).mp (map_eq_error.mp hlog)).1
    · cases h
  | endOp p =>
    simp only [step] at h
    split_ifs at h with hpc
    have hidle := hi.idle_of_inOp hpc
    split at h
    · next e' hlog =>
      simp only [Log.endOp, hidle] at hlog
      simp only [Bool.false_eq_true, if_false] at hlog
      split at hlog <;> cases hlog
    · cases h
    · cases h

/-- A group commit contains whole operations only.

In every reachable state a running commit excludes every operation and every `log_write`,
and neither `end_op` nor `log_write` finds the log in a state it panics on. Whenever an
`end_op` starts a commit, each operation begun since the previous commit has called
`end_op`; and by the time that commit ends, the blocks it has written outside the log are
exactly those logged since the previous commit, each once, with the contents it had after
the last `log_write` of it. -/
theorem group_commit_exact {start size : ℕ} {buf disk : ℕ → Block} {trace : List (Act P)}
    {s : GroupState P} (hrun : Run step (init start size buf disk) trace s) :
    (s.log.committing = true → s.log.outstanding = 0 ∧ ∀ p, s.pc p ≠ .inOp) ∧
    (s.log.committing = true → ∀ p b data, s.step (.logWrite p b data) = none) ∧
    (∀ a, s.step a ≠ some (.error "log.committing")) ∧
    (∀ a, s.step a ≠ some (.error "log_write outside of trans")) ∧
    (∀ (p : P) (s₁ s₂ s₃ : GroupState P) (during : List (Act P)),
      s.step (.endOp p) = some (.ok s₁) → s₁.log.committing = true →
      Run step s₁ during s₂ → (∀ q, .endCommit q ∉ during) → s₂.step (.endCommit p) = some (.ok s₃) →
      (∀ q before after, sinceCommit trace ++ [.endOp p] = before ++ .beginOp q :: after →
        .endOp q ∈ after) ∧
      ∃ writes homes, s₃.m.issued = s.m.issued ++ writes ∧
        writes.filter (fun w => ¬ s.log.area w.1) = homes ∧ (homes.map Prod.fst).Nodup ∧
        ∀ b data, (b, data) ∈ homes ↔ lastLogged (sinceCommit trace) b = some data) := by
  have hi := inv_of_run hrun
  refine ⟨?_, fun hcom => not_logWrite_of_committing hi hcom, ?_, ?_, ?_⟩
  · intro hcom
    refine ⟨?_, hi.quiet hcom⟩
    obtain ⟨ops, hmem, hcard⟩ := hi.outstanding
    have hempty : ops = ∅ := Finset.eq_empty_of_forall_notMem fun p hp => hi.quiet hcom p ((hmem p).mp hp)
    simp [hcard, hempty]
  · intro a ha
    have := (step_error hi ha).1
    simp at this
  · intro a ha
    have := (step_error hi ha).1
    simp at this
  intro p s₁ s₂ s₃ during hend hcom hduring hno hdone
  have hi₁ : Inv s₁ := (step_ok hend).inv hi
  have hrec : Recorded (sinceCommit trace) s := by
    apply (history_of_run hrun).idle
    cases step_ok hend with
    | endOp _ _ hidle => exact hidle
    | startCommit _ _ hidle => exact hidle
  constructor
  · intro q before after hsplit
    by_contra hnever
    obtain ⟨past, htrace, -, -⟩ := sinceCommit_suffix trace
    have hall : trace ++ [.endOp p] = (past ++ before) ++ .beginOp q :: after := by
      conv_lhs => rw [htrace]
      rw [List.append_assoc, hsplit, List.append_assoc]
    exact hi₁.quiet hcom q (inOp_of_begun (hrun.snoc hend) q _ after hall hnever)
  obtain ⟨hpc₁, hlog, hm, hlh, hstart⟩ : s₁.pc p = .committing s₁.log.commitEntry ∧
      s₁.log.area = s.log.area ∧ s₁.m = s.m ∧ s₁.log.lh = s.log.lh ∧ s₁.log.HeaderOk := by
    cases step_ok hend with
    | endOp _ _ hidle => simp [hidle] at hcom
    | startCommit => exact ⟨by simp [Log.commitEntry], rfl, rfl, rfl, header_of_run (hrun.snoc hend)⟩
  obtain ⟨pc₂, hpc₂, hfinish⟩ := commit_in_progress hi₁ hpc₁ hduring hno
  -- The commit can only end after its last write, so its result is that of `commit`.
  obtain ⟨hpc, hm₃⟩ : s₂.pc p = .committing .done ∧ s₃.m = s₂.m := by
    cases step_ok hdone with
    | endCommit _ hpc => exact ⟨hpc, rfl⟩
  obtain rfl : pc₂ = .done := by simpa [hpc] using hpc₂.symm
  rw [Log.finishCommit_entry] at hfinish
  have hresult : s₃.m = (s₁.log.commit s₁.m).2 := hm₃.trans (congrArg Prod.snd hfinish)
  obtain ⟨writes, hissued, hhomes⟩ := Log.commit_homes s₁.log s₁.m hstart
  refine ⟨writes, s₁.log.lh.map fun b => (b, s₁.m.buf b), by rw [hresult, hissued, hm], ?_, ?_, ?_⟩
  · simpa only [hlog] using hhomes
  · simpa [List.map_map, Function.comp_def, hlh] using hrec.nodup
  intro b data
  simp only [hlh, hm, List.mem_map, Prod.mk.injEq]
  constructor
  · rintro ⟨b, hmem, rfl, hdata⟩
    obtain ⟨value, hvalue⟩ := Option.isSome_iff_exists.mp ((hrec.mem b).mp hmem)
    rw [hvalue, ← hdata, hrec.contents b value hvalue]
  · intro hlast
    exact ⟨b, (hrec.mem b).mpr (by simp [hlast]), rfl, hrec.contents b data hlast⟩

/-- Two overlapping operations that both log block 59: their commit writes it once, as the
second left it. -/
theorem group_commit_exact_two_ops :
    let trace : List (Act ℕ) := [.beginOp 0, .beginOp 1, .logWrite 0 59 fun _ => 1, .endOp 0,
      .logWrite 1 59 fun _ => 2]
    ∃ s₃ : GroupState ℕ, ∃ homes,
      execute step (init 2 LOGSIZE (fun _ _ => 0) fun _ _ => 0) (trace ++ [.endOp 1, .commitStep 1,
        .commitStep 1, .commitStep 1, .commitStep 1, .endCommit 1]) = some (.ok s₃) ∧
      s₃.m.issued.filter (fun w => ¬ (2 ≤ w.1 ∧ w.1 < 2 + LOGSIZE)) = homes ∧
      ∀ b data, (b, data) ∈ homes ↔ lastLogged trace b = some data := by
  intro trace
  obtain ⟨s, hs⟩ : ∃ s, execute step (init 2 LOGSIZE (fun _ _ => 0) fun _ _ => 0) trace = some (.ok s) := ⟨_, rfl⟩
  obtain ⟨s₁, hs₁⟩ : ∃ s₁, s.step (.endOp 1) = some (.ok s₁) := by
    cases hs
    exact ⟨_, rfl⟩
  obtain ⟨s₂, hs₂⟩ : ∃ s₂, execute step s₁ [.commitStep 1, .commitStep 1, .commitStep 1, .commitStep 1] =
      some (.ok s₂) := by
    cases hs
    cases hs₁
    exact ⟨_, rfl⟩
  obtain ⟨s₃, hs₃⟩ : ∃ s₃, s₂.step (.endCommit 1) = some (.ok s₃) := by
    cases hs
    cases hs₁
    cases hs₂
    exact ⟨_, rfl⟩
  have hcommit := (group_commit_exact (run_of_execute _ _ _ _ hs)).2.2.2.2 1 s₁ s₂ s₃
    [.commitStep 1, .commitStep 1, .commitStep 1, .commitStep 1] hs₁ (by cases hs; cases hs₁; rfl)
    (run_of_execute _ _ _ _ hs₂) (by simp) hs₃
  obtain ⟨-, writes, homes, hissued, hhomes, -, hlast⟩ := hcommit
  refine ⟨s₃, homes, ?_, ?_, hlast⟩
  · cases hs
    cases hs₁
    cases hs₂
    cases hs₃
    rfl
  · cases hs
    rw [hissued]
    exact hhomes

end GroupState

end Xv6
