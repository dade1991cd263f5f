import Xv6.Lib.Run

/-!
# Postconditions of computations that can halt

A computation ensures a postcondition if its result satisfies it, unless it halts with an error. The rules
follow the way computations are written: a sequence, a case distinction, a result or an error.
-/

namespace Xv6.Lib

universe u

variable {E : Type*} {X Y : Type u}

/-- The result of `x`, if there is one, satisfies `post`. -/
def Ensures (x : Except E X) (post : X → Prop) : Prop := ∀ a, x = .ok a → post a

namespace Ensures

variable {x y : Except E X} {f : X → Except E Y} {mid post post' : X → Prop} {post₂ : Y → Prop}

theorem ok {a : X} (h : post a) : Ensures (.ok a : Except E X) post := by
  intro b hb
  cases hb
  exact h

theorem error (e : E) : Ensures (.error e) post := fun _ h => by cases h

theorem bind (hx : Ensures x mid) (hf : ∀ a, mid a → Ensures (f a) post₂) : Ensures (x >>= f) post₂ := by
  intro b hb
  obtain ⟨a, ha, hfa⟩ := bind_eq_ok.mp hb
  exact hf a (hx a ha) b hfa

/-- A postcondition that does not depend on the first computation. -/
theorem seq (hf : ∀ a, Ensures (f a) post₂) : Ensures (x >>= f) post₂ :=
  bind (fun _ _ => trivial) fun a (_ : True) => hf a

theorem imp (hx : Ensures x post) (h : ∀ a, post a → post' a) : Ensures x post' := fun a ha => h a (hx a ha)

theorem and (hx : Ensures x post) (hx' : Ensures x post') : Ensures x fun a => post a ∧ post' a :=
  fun a ha => ⟨hx a ha, hx' a ha⟩

theorem ite {p : Prop} [Decidable p] (hx : p → Ensures x post) (hy : ¬p → Ensures y post) :
    Ensures (if p then x else y) post := by
  split
  · next hp => exact hx hp
  · next hp => exact hy hp

theorem map {g : X → Y} (h : Ensures x fun a => post₂ (g a)) : Ensures (x.map g) post₂ := by
  intro b hb
  cases x with
  | error e => cases hb
  | ok a =>
    cases hb
    exact h a rfl

end Ensures

end Xv6.Lib
