import Mathlib

/-!
# Runs of a machine that can halt with an error

Computations that can halt are in `Except`. A step of the machine either is not enabled, or halts with an error,
or leads to a next state. A run is a sequence of steps that all succeed. Properties of a run may mention the
actions taken so far, so the invariant rule is stated for predicates of the history.
-/

namespace Xv6.Lib

variable {S A E : Type*}

attribute [local simp] Except.toOption

section Except

universe u

variable {X Y : Type u}

@[simp] theorem ok_bind (x : X) (f : X → Except E Y) : (Except.ok x >>= f) = f x := rfl

@[simp] theorem error_bind (e : E) (f : X → Except E Y) : (Except.error e >>= f) = .error e := rfl

variable {x : Except E X} {f : X → Except E Y}

/-- A sequence of two computations succeeds when both do. -/
theorem bind_eq_ok {y : Y} : (x >>= f) = .ok y ↔ ∃ a, x = .ok a ∧ f a = .ok y := by
  cases x <;> simp

/-- A sequence of two computations fails when the first fails, or the second after the first. -/
theorem bind_eq_error {e : E} : (x >>= f) = .error e ↔ x = .error e ∨ ∃ a, x = .ok a ∧ f a = .error e := by
  cases x <;> simp

theorem map_eq_ok {Z : Type*} {f : X → Z} {z : Z} : x.map f = .ok z ↔ ∃ a, x = .ok a ∧ f a = z := by
  cases x <;> simp [Except.map]

theorem map_eq_error {Z : Type*} {f : X → Z} {e : E} : x.map f = .error e ↔ x = .error e := by
  cases x <;> simp [Except.map]

/-- A step that is enabled under a condition. -/
theorem enabled_iff {p : Prop} [Decidable p] {a b : X} : (if p then some a else none) = some b ↔ p ∧ a = b := by simp

theorem enabled_ok_iff {p : Prop} [Decidable p] {a b : X} :
    (if p then some (Except.ok a : Except E X) else none) = some (.ok b) ↔ p ∧ a = b := by simp

end Except

/-- The actions `trace`, taken in order from `s`, all succeed and lead to `t`. -/
inductive Run (step : S → A → Option (Except E S)) (s : S) : List A → S → Prop
  | nil : Run step s [] s
  | snoc {trace : List A} {a : A} {t u : S} :
      Run step s trace t → step t a = some (.ok u) → Run step s (trace ++ [a]) u

namespace Run

variable {step : S → A → Option (Except E S)} {s t u : S}

/-- What holds of the empty history and is kept by every step holds of every history. -/
theorem invariant {P : List A → S → Prop} (hinit : P [] s)
    (hstep : ∀ trace a t u, Run step s trace t → P trace t → step t a = some (.ok u) → P (trace ++ [a]) u)
    {trace : List A} (h : Run step s trace t) : P trace t := by
  induction h with
  | nil => exact hinit
  | snoc hrun ha ih => exact hstep _ _ _ _ hrun ih ha

/-- Two runs that meet compose. -/
theorem append {first second : List A} (h : Run step s first t) (h' : Run step t second u) :
    Run step s (first ++ second) u := by
  induction h' with
  | nil => simpa using h
  | snoc _ ha ih =>
    rw [← List.append_assoc]
    exact ih.snoc ha

end Run

/-- The steps of a machine that meet a condition on the states before and after. -/
def restrict (step : S → A → Option (Except E S)) (allowed : S → S → Prop) [DecidableRel allowed] (s : S) (a : A) :
    Option (Except E S) :=
  match step s a with
  | some (.ok t) => if allowed s t then some (.ok t) else none
  | other => other

variable {step : S → A → Option (Except E S)} {allowed : S → A → Bool} {s t : S} {trace : List A}

theorem restrict_eq_ok {allowed : S → S → Prop} [DecidableRel allowed] {a : A} :
    restrict step allowed s a = some (.ok t) ↔ step s a = some (.ok t) ∧ allowed s t := by
  unfold restrict
  split
  · next u hu =>
    rw [hu]
    split
    · next hallowed =>
      constructor
      · intro h
        cases h
        exact ⟨rfl, hallowed⟩
      · exact fun h => h.1
    next hallowed =>
    constructor
    · intro h
      cases h
    · rintro ⟨h, hok⟩
      cases h
      exact absurd hok hallowed
  · next hother => exact ⟨fun h => absurd h (hother t), fun h => absurd h.1 (hother t)⟩

/-- The steps of a machine whose action meets a condition on the state before. -/
def guarded (step : S → A → Option (Except E S)) (allowed : S → A → Bool) (s : S) (a : A) : Option (Except E S) :=
  if allowed s a then step s a else none

theorem guarded_eq_ok {a : A} :
    guarded step allowed s a = some (.ok t) ↔ allowed s a = true ∧ step s a = some (.ok t) := by
  simp [guarded]

theorem Run.of_guarded (h : Run (guarded step allowed) s trace t) : Run step s trace t := by
  induction h with
  | nil => exact .nil
  | snoc _ ha ih => exact ih.snoc (guarded_eq_ok.mp ha).2

/-- Take the actions in order, stopping at the first that is not enabled or halts. -/
def execute (step : S → A → Option (Except E S)) (s : S) : List A → Option (Except E S)
  | [] => some (.ok s)
  | a :: rest =>
    match step s a with
    | some (.ok t) => execute step t rest
    | other => other

/-- Executing a sequence of actions that all succeed is a run. -/
theorem run_of_execute (step : S → A → Option (Except E S)) (s t : S) (trace : List A)
    (h : execute step s trace = some (.ok t)) : Run step s trace t := by
  induction trace generalizing s with
  | nil =>
    cases h
    exact .nil
  | cons a rest ih =>
    rw [execute] at h
    split at h
    · next hstep => exact (Run.nil.snoc hstep).append (ih _ h)
    · next hother => exact absurd h (hother t)

/-- A property of the state that executing a sequence of actions leads to. -/
theorem run_of_check (step : S → A → Option (Except E S)) (s : S) (trace : List A) (check : S → Bool)
    (h : (execute step s trace).any (fun result => result.toOption.any check) = true) :
    ∃ t, Run step s trace t ∧ check t = true := by
  cases hexec : execute step s trace with
  | none => simp [hexec] at h
  | some result =>
    cases result with
    | error e => simp [hexec] at h
    | ok t => exact ⟨t, run_of_execute step s t trace hexec, by simpa [hexec] using h⟩

/-- The same for a property that can be decided. -/
theorem exists_run {P : S → Prop} [DecidablePred P]
    (h : (execute step s trace).any (fun result => result.toOption.any fun t => decide (P t)) = true) :
    ∃ t, Run step s trace t ∧ P t := by
  obtain ⟨t, hrun, hcheck⟩ := run_of_check step s trace (fun t => decide (P t)) h
  exact ⟨t, hrun, of_decide_eq_true hcheck⟩

/-- And for another one that every run has. -/
theorem exists_run_and {P Q : S → Prop} [DecidablePred P] (hQ : ∀ t, Run step s trace t → Q t)
    (h : (execute step s trace).any (fun result => result.toOption.any fun t => decide (P t)) = true) :
    ∃ t, Run step s trace t ∧ P t ∧ Q t :=
  (exists_run h).imp fun t ⟨hrun, hP⟩ => ⟨hrun, hP, hQ t hrun⟩

/-- A call whose result passes a check. -/
theorem ok_of_check {X : Type*} {x : Except E X} {check : X → Bool} (h : x.toOption.any check = true) :
    ∃ a, x = .ok a ∧ check a = true := by
  cases x with
  | error e => simp at h
  | ok a => exact ⟨a, rfl, by simpa using h⟩

/-- Whether a step halts with error `e`. -/
def haltsWith [DecidableEq E] (e : E) : Option (Except E S) → Bool
  | some (.error e') => e' = e
  | _ => false

theorem eq_of_haltsWith [DecidableEq E] {e : E} {result : Option (Except E S)} (h : haltsWith e result = true) :
    result = some (.error e) := by
  unfold haltsWith at h
  split at h
  · rw [of_decide_eq_true h]
  · cases h

theorem exists_ok {result : Except E S} (h : result.isOk = true) : ∃ s, result = .ok s := by
  cases result with
  | error e => cases h
  | ok s => exact ⟨s, rfl⟩

end Xv6.Lib
