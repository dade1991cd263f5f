import Mathlib

/-!
# Locks and the processes that hold them

A lock records its owner, and where a process is says whether it holds the lock. A process that comes to another
place takes the lock, keeps it, or lets it go.
-/

namespace Xv6.Lib

variable {P X : Type*} [DecidableEq P]

/-- The owner of a lock after process `p` comes to a place where it holds the lock, or does not. -/
def handOver (owner : Option P) (p : P) (holds : Bool) : Option P :=
  if holds = true then some p else if owner = some p then none else owner

theorem handOver_keep {owner : Option P} {p : P} {holds : Bool} (h : owner = some p ↔ holds = true) :
    handOver owner p holds = owner := by
  unfold handOver
  by_cases hholds : holds = true
  · rw [if_pos hholds, h.mpr hholds]
  · rw [if_neg hholds, if_neg fun howner => hholds (h.mp howner)]

/-- The owner is the process at a place with the lock, if it only takes a lock that is free. -/
theorem handOver_iff {holds : X → Bool} {owner : Option P} {place : P → X}
    (h : ∀ q, owner = some q ↔ holds (place q) = true) {p : P} {x : X}
    (hfree : holds x = true → owner = none ∨ owner = some p) (q : P) :
    handOver owner p (holds x) = some q ↔ holds (Function.update place p x q) = true := by
  unfold handOver
  by_cases hq : q = p
  · subst hq
    by_cases hx : holds x = true
    · simp [hx]
    · rw [if_neg hx]
      split
      · simp [hx]
      · next howner => simp [hx, howner]
  rw [Function.update_of_ne hq, ← h q]
  by_cases hx : holds x = true
  · rcases hfree hx with howner | howner <;> simp [howner, Ne.symm hq]
  · rw [if_neg hx]
    split
    · next howner => simp [howner, Ne.symm hq]
    · rfl

end Xv6.Lib
