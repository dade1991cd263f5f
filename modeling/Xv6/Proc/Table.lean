import Mathlib

/-!
# The process table

The part of a process structure that `sleep`, `wakeup` and `kill` use. Channels are of any type.
-/

namespace Xv6.Proc

open Function (update update_self update_of_ne)

inductive ProcState
  | SLEEPING
  | RUNNABLE
  | RUNNING
  deriving DecidableEq

/-- A process structure, as far as sleeping is concerned. -/
structure Entry (C : Type) where
  state : ProcState
  /-- If not none, sleeping on this channel. -/
  chan : Option C
  /-- If true, have been killed. -/
  killed : Bool

variable {P C : Type} [DecidableEq P] [DecidableEq C]

/-- The process is SLEEPING on a channel. -/
def Entry.SleepsOn (e : Entry C) (chan : C) : Prop := e.state = .SLEEPING ∧ e.chan = some chan

instance (e : Entry C) (chan : C) : Decidable (e.SleepsOn chan) := inferInstanceAs (Decidable (_ ∧ _))

/-- Wake up all processes sleeping on `chan`. The ptable lock must be held. -/
def wakeup1 (table : P → Entry C) (chan : C) (p : P) : Entry C :=
  if (table p).SleepsOn chan then { table p with state := .RUNNABLE } else table p

/-- Kill the given process, and wake it from sleep if necessary. -/
def kill (table : P → Entry C) (pid : P) : P → Entry C :=
  let e := table pid
  update table pid
    { e with killed := true, state := if e.state = .SLEEPING then .RUNNABLE else e.state }

section Lemmas

variable {table : P → Entry C} {p q : P} {chan c : C}

omit [DecidableEq P] in
/-- After `wakeup1` no process sleeps on the channel, and others sleep as before. -/
theorem sleepsOn_wakeup1 : (wakeup1 table chan p).SleepsOn c ↔ (table p).SleepsOn c ∧ c ≠ chan := by
  unfold wakeup1
  split
  · next h =>
    refine ⟨fun h' => absurd h'.1 (by simp), fun ⟨h', hne⟩ => absurd ?_ hne⟩
    exact Option.mem_unique h'.2 h.2
  · next h =>
    refine ⟨fun h' => ⟨h', ?_⟩, fun h' => h'.1⟩
    rintro rfl
    exact h h'

omit [DecidableEq P] in
/-- `wakeup1` changes no process that runs. -/
theorem wakeup1_running_iff : (wakeup1 table chan p).state = .RUNNING ↔ (table p).state = .RUNNING := by
  unfold wakeup1
  split
  · next h => simp [h.1]
  · rfl

omit [DecidableEq P] in
theorem sleeping_of_wakeup1 (h : (wakeup1 table chan p).state = .SLEEPING) : (table p).state = .SLEEPING := by
  unfold wakeup1 at h
  split at h
  · cases h
  · exact h

omit [DecidableEq C] in
/-- `kill` changes the state of no process that runs. -/
theorem kill_running_iff : (kill table q p).state = .RUNNING ↔ (table p).state = .RUNNING := by
  unfold kill
  by_cases hp : p = q
  · subst hp
    rw [update_self]
    dsimp only
    split
    · next hsleep => simp [hsleep]
    · rfl
  · rw [update_of_ne hp]

omit [DecidableEq C] in
theorem sleeping_of_kill (h : (kill table q p).state = .SLEEPING) : (table p).state = .SLEEPING := by
  unfold kill at h
  by_cases hp : p = q
  · subst hp
    rw [update_self] at h
    dsimp only at h
    split at h
    · cases h
    · exact h
  · rwa [update_of_ne hp] at h

omit [DecidableEq C] in
/-- `kill` puts no process to sleep. -/
theorem sleepsOn_of_kill (h : (kill table q p).SleepsOn c) : (table p).SleepsOn c := by
  refine ⟨sleeping_of_kill h.1, ?_⟩
  have hchan := h.2
  unfold kill at hchan
  by_cases hp : p = q
  · subst hp
    rwa [update_self] at hchan
  · rwa [update_of_ne hp] at hchan

end Lemmas

end Xv6.Proc
