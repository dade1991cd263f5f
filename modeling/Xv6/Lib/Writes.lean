import Mathlib

/-!
# Sequences of writes to a store

A store maps addresses to values. Writes take effect one at a time and in order, so a
store that stops after some prefix of a sequence is the result of applying that prefix.
-/

namespace Xv6.Lib

variable {A B : Type*} [DecidableEq A]

section Update

variable {store : A → B} {a a' : A} {value b : B}

/-- An address that has a value other than the one written is not the one written to. -/
theorem update_eq_iff (h : value ≠ b) : Function.update store a value a' = b ↔ a' ≠ a ∧ store a' = b := by
  by_cases ha : a' = a
  · simp [ha, h]
  · simp [ha]

/-- Neither the value written nor the one before it is `b`. -/
theorem update_eq_iff_of_ne (h : value ≠ b) (hold : store a ≠ b) :
    Function.update store a value a' = b ↔ store a' = b :=
  (update_eq_iff h).trans (and_iff_right_of_imp fun heq ha => hold (ha ▸ heq))

end Update

/-- Apply the writes to the store, oldest first. -/
def applyWrites (store : A → B) (writes : List (A × B)) : A → B :=
  writes.foldl (fun s w => Function.update s w.1 w.2) store

variable (store : A → B)

@[simp] theorem applyWrites_nil : applyWrites store [] = store := rfl

@[simp] theorem applyWrites_cons (w : A × B) (rest : List (A × B)) :
    applyWrites store (w :: rest) = applyWrites (Function.update store w.1 w.2) rest := rfl

/-- Applying a concatenation applies its parts in order. -/
theorem applyWrites_append (first second : List (A × B)) :
    applyWrites store (first ++ second) = applyWrites (applyWrites store first) second :=
  List.foldl_append

/-- An address that no write names keeps its value. -/
theorem applyWrites_of_notMem (writes : List (A × B)) (a : A) (h : ∀ w ∈ writes, w.1 ≠ a) :
    applyWrites store writes a = store a := by
  induction writes generalizing store with
  | nil => rfl
  | cons w rest ih =>
    rw [applyWrites_cons, ih _ fun v hv => h v (List.mem_cons_of_mem _ hv)]
    exact Function.update_of_ne (h w List.mem_cons_self).symm _ _

/-- Writing `value a` at each listed address sets exactly those addresses. -/
theorem applyWrites_map (addresses : List A) (value : A → B) (a : A) :
    applyWrites store (addresses.map fun x => (x, value x)) a =
      if a ∈ addresses then value a else store a := by
  induction addresses generalizing store with
  | nil => simp
  | cons x rest ih =>
    rw [List.map_cons, applyWrites_cons, ih]
    by_cases hrest : a ∈ rest
    · simp [hrest]
    · by_cases hx : a = x
      · subst hx
        simp [hrest]
      · simp [hrest, hx]

end Xv6.Lib
