import Xv6.Log.GroupCommit

/-!
# The capacity of the log

`begin_op` admits operations as long as the blocks already logged and ten more for every
operation in progress fit into `LOGSIZE` blocks. The log that `mkfs` lays out has
`LOGSIZE` blocks with its header, so it holds one data block less than that; and
`log_write` tests both limits before it looks for the block among those already logged.
Three operations that stay within their ten blocks each can therefore reach the panic.

`log_write` makes its tests before it takes `log.lock`, so here they are a step of their
own: between a process's tests and its turn at the lock, others can pass the same tests and
list their blocks first.
-/

namespace Xv6

open Lib
open Function (update)

/-- The steps of the processes when `log_write` is two of them: its tests, and its locked section. -/
inductive FineAct (P : Type*) where
  | test (p : P) (b : ℕ) (data : Block)
  | act (a : Act P)

/-- `tested p` is the block whose `log_write` has passed its tests in process `p` and waits for `log.lock`. -/
structure FineState (P : Type*) extends GroupState P where
  tested : P → Option (ℕ × Block)

namespace FineState

variable {P : Type*} [DecidableEq P]

/-- One step of the system. A process inside `log_write` makes no step but its own append.

The list may outgrow `LOGSIZE`; in the source the store is then past `log.lh.block`. -/
def step (s : FineState P) : FineAct P → Option (Except Panic (FineState P))
  | .test p b data =>
    if s.pc p = .inOp ∧ s.tested p = none ∧ b < 2 ^ 32 ∧ ¬ s.log.area b then
      some (s.log.logTest.map fun _ => { s with tested := update s.tested p (some (b, data)) })
    else none
  | .act (.logWrite p b data) =>
    if s.tested p = some (b, data) then
      some (.ok { s with
        log := s.log.logAppend b
        m := { s.m with buf := update s.m.buf b data }
        tested := update s.tested p none })
    else none
  | .act (.endOp p) =>
    if s.tested p = none then
      (s.toGroupState.step (.endOp p)).map (·.map fun t => { s with toGroupState := t })
    else none
  | .act a => (s.toGroupState.step a).map (·.map fun t => { s with toGroupState := t })

/-- No operation has begun and the log is empty. -/
def init (start size : ℕ) (buf disk : ℕ → Block) : FineState P where
  toGroupState := .init start size buf disk
  tested := fun _ => none

/-- The steps without the tests. -/
def acts (trace : List (FineAct P)) : List (Act P) := trace.filterMap fun
  | .test .. => none
  | .act a => some a

end FineState

namespace GroupState

variable {P : Type*} [DecidableEq P]

/-- The distinct blocks logged by the actions. -/
def loggedBlocks (actions : List (Act P)) : Finset ℕ :=
  actions.foldl (fun blocks a => match a with
    | .logWrite _ b _ => insert b blocks
    | _ => blocks) ∅

/-- The distinct blocks that process `p` has logged since it last began an operation. -/
def opBlocks (trace : List (Act P)) (p : P) : Finset ℕ :=
  trace.foldl (fun blocks a => match a with
    | .beginOp q => if q = p then ∅ else blocks
    | .logWrite q b _ => if q = p then insert b blocks else blocks
    | _ => blocks) ∅

/-- No operation of the trace logs more than `MAXOPBLOCKS` distinct blocks. -/
def WithinBudget (trace : List (Act P)) : Prop :=
  ∀ pre ∈ trace.inits, ∀ p, (opBlocks pre p).card ≤ MAXOPBLOCKS

omit [DecidableEq P] in
theorem mem_loggedBlocks (actions : List (Act P)) (b : ℕ) :
    b ∈ loggedBlocks actions ↔ (lastLogged actions b).isSome := by
  induction actions using List.reverseRecOn with
  | nil => simp [loggedBlocks, lastLogged]
  | append_singleton actions a ih =>
    rw [lastLogged_append]
    simp only [loggedBlocks, List.foldl_append, List.foldl_cons, List.foldl_nil] at ih ⊢
    cases a with
    | logWrite p c data =>
      by_cases hcb : c = b
      · simp [hcb]
      · simp [hcb, Ne.symm hcb, ih]
    | _ => exact ih

variable {s s' : GroupState P} {a : Act P} {trace : List (Act P)}

omit [DecidableEq P] in
/-- Between commits the header has one entry for each distinct block logged. -/
theorem History.length_lh (hh : History trace s) (hidle : s.log.committing = false) :
    s.log.lh.length = (loggedBlocks (sinceCommit trace)).card := by
  have hrec := hh.idle hidle
  rw [← List.toFinset_card_of_nodup hrec.nodup]
  congr 1
  ext b
  rw [List.mem_toFinset, mem_loggedBlocks, hrec.mem]

/-- No step moves the log area. -/
theorem Step.geometry (h : Step s a s') : s'.log.start = s.log.start ∧ s'.log.size = s.log.size := by
  cases h with
  | commitStep p pc pc' log m hpc hstep =>
    obtain ⟨rfl, -⟩ | ⟨rfl, -⟩ := Log.commitStep_log hstep <;> exact ⟨rfl, rfl⟩
  | _ => exact ⟨rfl, rfl⟩

/-- A commit lists no block that was not logged since the one before it. -/
theorem Step.length_lh_le (h : Step s a s') (hi : Inv s) (hh : History (trace ++ [a]) s')
    (hle : s.log.lh.length ≤ (loggedBlocks (sinceCommit trace)).card) :
    s'.log.lh.length ≤ (loggedBlocks (sinceCommit (trace ++ [a]))).card := by
  have hkeep (ha : ∀ b, lastLogged (sinceCommit (trace ++ [a])) b = lastLogged (sinceCommit trace) b) :
      loggedBlocks (sinceCommit (trace ++ [a])) = loggedBlocks (sinceCommit trace) := by
    ext b
    rw [mem_loggedBlocks, mem_loggedBlocks, ha]
  by_cases hidle : s'.log.committing = false
  · exact (hh.length_lh hidle).le
  cases h with
  | logWrite p b data hpc hb hhome => exact absurd (hi.idle_of_inOp hpc) hidle
  | endCommit p hpc => exact absurd rfl hidle
  | commitStep p pc pc' log m hpc hstep =>
    rw [hkeep fun b => by rw [sinceCommit_append, lastLogged_append]]
    obtain ⟨rfl, -⟩ | ⟨rfl, -⟩ := Log.commitStep_log hstep
    · exact hle
    · exact Nat.zero_le _
  | _ =>
    rw [hkeep fun b => by rw [sinceCommit_append, lastLogged_append]]
    exact hle

/-- The one write of a commit step is in the log area, or installs a listed home block. -/
theorem commitStep_write {log log' : Log} {m m' : Machine} {pc pc' : CommitPc} (hroom : log.lh.length + 1 ≤ log.size)
    (h : log.commitStep m pc = some (log', m', pc')) :
    ∃ b data, m'.issued = m.issued ++ [(b, data)] ∧
      (log.area b ∨ ∃ tail, pc = .installTrans tail ∧ log.lh[tail]? = some b) := by
  have hstart : log.area log.start := ⟨le_rfl, by omega⟩
  cases pc with
  | writeLog tail =>
    simp only [Log.commitStep] at h
    split at h
    · cases h
      exact ⟨_, _, rfl, .inl ⟨by omega, by omega⟩⟩
    · cases h
      exact ⟨_, _, rfl, .inl hstart⟩
  | installTrans tail =>
    simp only [Log.commitStep] at h
    split at h
    · next htail =>
      cases h
      exact ⟨_, _, rfl, .inr ⟨tail, rfl, List.getElem?_eq_getElem htail⟩⟩
    · cases h
      exact ⟨_, _, rfl, .inl hstart⟩
  | done => cases h

end GroupState

namespace FineState

open GroupState

variable {P : Type*} [DecidableEq P] {s s' : FineState P} {a : FineAct P} {trace : List (FineAct P)}
  {start size : ℕ} {buf disk : ℕ → Block}

/-- What holds after a run. -/
structure Reached (start size : ℕ) (trace : List (FineAct P)) (s : FineState P) : Prop where
  inv : Inv s.toGroupState
  history : History (acts trace) s.toGroupState
  geometry : s.log.start = start ∧ s.log.size = size
  /-- A process that waits for the lock is inside its operation, with a home block to list. -/
  waiting : ∀ p b data, s.tested p = some (b, data) → s.pc p = .inOp ∧ b < 2 ^ 32 ∧ ¬ s.log.area b
  listed : s.log.lh.length ≤ (loggedBlocks (sinceCommit (acts trace))).card

omit [DecidableEq P] in
/-- A lifted step is one of the coarse system. -/
theorem lift_ok {r : Option (Except Panic (GroupState P))} {t : P → Option (ℕ × Block)}
    (h : r.map (·.map fun u => FineState.mk u t) = some (.ok s')) :
    r = some (.ok s'.toGroupState) ∧ s'.tested = t := by
  obtain ⟨e, rfl, he⟩ := Option.map_eq_some_iff.mp h
  obtain ⟨u, rfl, rfl⟩ := map_eq_ok.mp he
  exact ⟨rfl, rfl⟩

/-- A step is a test that passed, or one of the coarse system that the tests allow. -/
theorem step_ok (hr : Reached start size trace s) (h : s.step a = some (.ok s')) :
    (∃ p b data, a = .test p b data ∧ s.pc p = .inOp ∧ b < 2 ^ 32 ∧ ¬ s.log.area b ∧
      s' = { s with tested := update s.tested p (some (b, data)) }) ∨
    ∃ c, a = .act c ∧ Step s.toGroupState c s'.toGroupState ∧
      ∀ p x, s'.tested p = some x → s.tested p = some x ∧ c ≠ .endOp p := by
  cases a with
  | test p b data =>
    simp only [step] at h
    split_ifs at h with hpc
    obtain ⟨-, -, heq⟩ := map_eq_ok.mp (Option.some.inj h)
    exact .inl ⟨p, b, data, rfl, hpc.1, hpc.2.2.1, hpc.2.2.2, heq.symm⟩
  | act c =>
    refine .inr ⟨c, rfl, ?_⟩
    cases c with
    | logWrite p b data =>
      simp only [step] at h
      split_ifs at h with htested
      cases h
      obtain ⟨hpc, hb, hhome⟩ := hr.waiting p b data htested
      refine ⟨.logWrite p b data hpc hb hhome, fun q x hq => ⟨?_, nofun⟩⟩
      by_cases hqp : q = p
      · simp [hqp] at hq
      · simpa [hqp] using hq
    | endOp p =>
      simp only [step] at h
      split_ifs at h with htested
      obtain ⟨hs, heq⟩ := lift_ok h
      refine ⟨GroupState.step_ok hs, fun q x hq => ?_⟩
      rw [heq] at hq
      refine ⟨hq, fun hend => ?_⟩
      cases hend
      simp [htested] at hq
    | _ =>
      obtain ⟨hs, heq⟩ := lift_ok h
      exact ⟨GroupState.step_ok hs, fun q x hq => ⟨heq ▸ hq, nofun⟩⟩

/-- One step more. -/
theorem Reached.step (hr : Reached start size trace s) (h : s.step a = some (.ok s')) :
    Reached start size (trace ++ [a]) s' := by
  obtain ⟨p, b, data, rfl, hpc, hb, hhome, rfl⟩ | ⟨c, rfl, hs, htested⟩ := step_ok hr h
  · have hacts : acts (trace ++ [.test p b data]) = acts trace := by simp [acts]
    refine ⟨hr.inv, hacts ▸ hr.history, hr.geometry, fun q c value hq => ?_, hacts ▸ hr.listed⟩
    by_cases hqp : q = p
    · subst hqp
      obtain ⟨rfl, rfl⟩ : b = c ∧ data = value := by simpa using hq
      exact ⟨hpc, hb, hhome⟩
    · exact hr.waiting q c value (by simpa [hqp] using hq)
  · have hacts : acts (trace ++ [.act c]) = acts trace ++ [c] := by simp [acts]
    have hhistory : History (acts (trace ++ [.act c])) s'.toGroupState := hacts ▸ hs.history hr.inv hr.history
    refine ⟨hs.inv hr.inv, hhistory, ?_, fun q b value hq => ?_, ?_⟩
    · rw [hs.geometry.1, hs.geometry.2]
      exact hr.geometry
    · obtain ⟨hq, hne⟩ := htested q _ hq
      obtain ⟨hpc, hb, hhome⟩ := hr.waiting q b value hq
      refine ⟨hs.inOp hpc hne, hb, ?_⟩
      rwa [Log.area, hs.geometry.1, hs.geometry.2]
    · rw [hacts] at hhistory ⊢
      exact hs.length_lh_le hr.inv hhistory hr.listed

/-- Every run reaches such a state. -/
theorem reached_of_run (h : Run step (init start size buf disk) trace s) : Reached start size trace s := by
  refine h.invariant (P := Reached start size) ?_ fun _ _ _ _ _ hr hs => hr.step hs
  exact ⟨inv_init, history_init, ⟨rfl, rfl⟩, nofun, Nat.zero_le _⟩

/-- A run of the coarse system is one in which every `log_write` takes the lock right after its tests. -/
theorem run_of_groupRun {trace : List (Act P)} {t : GroupState P}
    (h : Run GroupState.step (.init start size buf disk) trace t) :
    ∃ fine, acts fine = trace ∧ Run step (init start size buf disk) fine ⟨t, fun _ => none⟩ := by
  induction h with
  | nil => exact ⟨[], rfl, .nil⟩
  | @snoc trace a t u _ hs ih =>
    obtain ⟨fine, rfl, hfine⟩ := ih
    by_cases ha : ∃ p b data, a = .logWrite p b data
    · obtain ⟨p, b, data, rfl⟩ := ha
      simp only [GroupState.step] at hs
      split_ifs at hs with hpc
      split at hs
      · cases hs
      next log hlog =>
      cases hs
      obtain ⟨htest, rfl⟩ := Log.logWrite_ok hlog
      have hpassed : step ⟨t, fun _ => none⟩ (.test p b data) = some (.ok ⟨t, update (fun _ => none) p (b, data)⟩) := by
        simp only [step, hpc.1, hpc.2.1, hpc.2.2, htest, not_false_eq_true, and_self, if_true]
        rfl
      exact ⟨fine ++ [.test p b data] ++ [.act (.logWrite p b data)], by simp [acts],
        (hfine.snoc hpassed).snoc (by simp [step])⟩
    · have hlifted : step ⟨t, fun _ => none⟩ (.act a) = some (.ok ⟨u, fun _ => none⟩) := by
        cases a <;> simp_all [step, Except.map]
      exact ⟨fine ++ [.act a], by simp [acts], hfine.snoc hlifted⟩

omit [DecidableEq P] in
/-- The tests of a process inside an operation fail exactly when the log area is used up. -/
theorem Reached.logTest_too_big (hr : Reached start LOGSIZE trace s) {p : P} (hpc : s.pc p = .inOp) :
    s.log.logTest = .error "too big a transaction" ↔
      ¬ (loggedBlocks (sinceCommit (acts trace))).card < LOGSIZE - 1 := by
  have hlength := hr.history.length_lh (hr.inv.idle_of_inOp hpc)
  rw [Log.logTest_error (hr.inv.one_le_outstanding hpc), hr.geometry.2]
  simp only [true_and]
  omega

/-- Only the tests can panic. -/
theorem step_act_ne_error (hr : Reached start size trace s) {c : Act P} {e : Panic} :
    s.step (.act c) ≠ some (.error e) := by
  intro h
  have hlift {r : Option (Except Panic (GroupState P))} {t : P → Option (ℕ × Block)}
      (h : r.map (·.map fun u => FineState.mk u t) = some (.error e)) : r = some (.error e) := by
    obtain ⟨x, rfl, hx⟩ := Option.map_eq_some_iff.mp h
    rw [map_eq_error.mp hx]
  cases c with
  | logWrite p b data =>
    simp only [step] at h
    split_ifs at h
    cases h
  | endOp p =>
    simp only [step] at h
    split_ifs at h
    obtain ⟨-, _, _, _, ⟨⟩, -⟩ := step_error hr.inv (hlift h)
  | _ => obtain ⟨-, _, _, _, ⟨⟩, -⟩ := step_error hr.inv (hlift h)

/-- The log overflows exactly at its twenty-ninth distinct block.

With the log area `mkfs` lays out, in every state of every run the next step panics over the
transaction's size if and only if it is the tests of a `log_write` and `LOGSIZE - 1` distinct
blocks have been logged since the last commit. Every write of a commit of at most that many
blocks, other than the installation of a home block, lies in the log area. -/
theorem log_capacity {start : ℕ} {buf disk : ℕ → Block} {trace : List (FineAct P)} {s : FineState P}
    (hrun : Run step (init start LOGSIZE buf disk) trace s) :
    (∀ a, s.step a = some (.error "too big a transaction") ↔
      ∃ p b data, a = .test p b data ∧ s.pc p = .inOp ∧ s.tested p = none ∧ b < 2 ^ 32 ∧
        ¬ (start ≤ b ∧ b < start + LOGSIZE) ∧
        ¬ (loggedBlocks (sinceCommit (acts trace))).card < LOGSIZE - 1) ∧
    ((loggedBlocks (sinceCommit (acts trace))).card ≤ LOGSIZE - 1 →
      ∀ p pc s', s.pc p = .committing pc → s.step (.act (.commitStep p)) = some (.ok s') →
      ∃ b data, s'.m.issued = s.m.issued ++ [(b, data)] ∧
        (start ≤ b ∧ b < start + LOGSIZE ∨ ∃ tail, pc = .installTrans tail ∧ s.log.lh[tail]? = some b)) := by
  have hr := reached_of_run hrun
  obtain ⟨hstart, hsize⟩ := hr.geometry
  have harea : ∀ b, s.log.area b ↔ start ≤ b ∧ b < start + LOGSIZE := by
    intro b
    rw [Log.area, hstart, hsize]
  constructor
  · intro a
    constructor
    · intro ha
      cases a with
      | test p b data =>
        simp only [step] at ha
        split_ifs at ha with hpc
        have htest := map_eq_error.mp (Option.some.inj ha)
        exact ⟨p, b, data, rfl, hpc.1, hpc.2.1, hpc.2.2.1, by rw [← harea]; exact hpc.2.2.2,
          (hr.logTest_too_big hpc.1).mp htest⟩
      | act c => exact absurd ha (step_act_ne_error hr)
    · rintro ⟨p, b, data, rfl, hpc, htested, hb, hhome, hcard⟩
      simp only [step]
      rw [if_pos ⟨hpc, htested, hb, by rwa [harea]⟩, (hr.logTest_too_big hpc).mpr hcard]
      rfl
  · intro hcard p pc s' hpc hs
    obtain ⟨-, -, -, ⟨⟩, -⟩ | ⟨_, heq, hs, -⟩ := step_ok hr hs
    cases heq
    generalize s'.toGroupState = t at hs ⊢
    cases hs with
    | commitStep _ pc₁ pc₂ log m hpc₁ hstep =>
      obtain rfl : pc = pc₁ := by simpa [hpc] using hpc₁
      have hroom : s.log.lh.length + 1 ≤ s.log.size := by
        have hlisted := hr.listed
        have hpos : 0 < LOGSIZE := by decide
        omega
      obtain ⟨b, data, hissued, hb⟩ := commitStep_write hroom hstep
      exact ⟨b, data, hissued, by rwa [harea] at hb⟩

/-- The tests and the append of `log_write` for the blocks from `first` on. -/
def logged (p : P) (first count : ℕ) : List (FineAct P) :=
  (List.range count).flatMap fun i => [.test p (first + i) fun _ => 0, .act (.logWrite p (first + i) fun _ => 0)]

/-- A single operation's first `log_write` finds the log empty, so it goes through. -/
theorem log_capacity_first_write :
    ∃ s : FineState ℕ, execute step (init 2 LOGSIZE (fun _ _ => 0) fun _ _ => 0) [.act (.beginOp 0)] = some (.ok s) ∧
      s.step (.test 0 59 fun _ => 1) ≠ some (.error "too big a transaction") := by
  obtain ⟨s, hs⟩ : ∃ s, execute step (init 2 LOGSIZE (fun _ _ => 0) fun _ _ => 0) [.act (.beginOp 0)] =
      some (.ok s) := ⟨_, rfl⟩
  refine ⟨s, hs, ?_⟩
  intro hpanic
  obtain ⟨_, _, _, -, -, -, -, -, hfull⟩ := ((log_capacity (run_of_execute _ _ _ _ hs)).1 _).mp hpanic
  exact hfull (by decide)

/-- Three admitted operations that log ten blocks each, and no more.

One after the other they reach the panic: the thirtieth `log_write` finds twenty-nine blocks
in a log of thirty. When the last two `log_write` calls make their tests before either takes
the lock, both pass, and the commit writes the block after the log area. -/
theorem three_full_ops_panic :
    let ops : List (FineAct (Fin 3)) := [FineAct.act (.beginOp 0), .act (.beginOp 1), .act (.beginOp 2)] ++
      logged 0 100 10 ++ logged 1 200 9 ++ logged 2 300 9
    let one : List (FineAct (Fin 3)) := logged 1 209 1
    let both : List (FineAct (Fin 3)) := [.test 1 209 fun _ => 0, .test 2 309 fun _ => 0,
      .act (.logWrite 1 209 fun _ => 0), .act (.logWrite 2 309 fun _ => 0)]
    let ends : List (FineAct (Fin 3)) := [FineAct.act (.endOp 0), .act (.endOp 1), .act (.endOp 2)] ++
      List.replicate 30 (FineAct.act (.commitStep 2))
    WithinBudget (acts (ops ++ both)) ∧
    (∃ s, Run step (init 2 LOGSIZE (fun _ _ => 0) fun _ _ => 0) (ops ++ one) s ∧
      s.step (.test 2 309 fun _ => 0) = some (.error "too big a transaction")) ∧
    ∃ s, Run step (init 2 LOGSIZE (fun _ _ => 0) fun _ _ => 0) (ops ++ both ++ ends) s ∧
      s.m.issued.getLast?.map Prod.fst = some (2 + LOGSIZE) := by
  intro ops one both ends
  refine ⟨?_, ?_, exists_run (by decide +kernel)⟩
  · unfold WithinBudget
    decide +kernel
  · obtain ⟨s, hrun, hcheck⟩ := run_of_check step (init 2 LOGSIZE (fun _ _ => 0) fun _ _ => 0) (ops ++ one)
      (fun s => haltsWith "too big a transaction" (s.step (.test 2 309 fun _ => 0))) (by decide +kernel)
    exact ⟨s, hrun, eq_of_haltsWith hcheck⟩

end FineState

end Xv6
