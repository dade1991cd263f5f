import Mathlib

/-!
# Computations that record their accesses

A traced computation has a value and the list of the accesses made on the way to it, in order.
A property of all accesses of a sequence is the property of the accesses of its parts.
-/

namespace Xv6.Lib

universe u v

/-- A value and the accesses made on the way to it. -/
structure Traced (I : Type u) (X : Type v) where
  value : X
  trace : List I

namespace Traced

variable {I : Type u} {X Y : Type v} {P Q : I → Prop}

instance : Monad (Traced I) where
  pure x := ⟨x, []⟩
  bind x f := ⟨(f x.value).value, x.trace ++ (f x.value).trace⟩

@[simp] theorem value_pure (x : X) : (pure x : Traced I X).value = x := rfl

@[simp] theorem trace_pure (x : X) : (pure x : Traced I X).trace = [] := rfl

@[simp] theorem value_bind (x : Traced I X) (f : X → Traced I Y) : (x >>= f).value = (f x.value).value := rfl

@[simp] theorem trace_bind (x : Traced I X) (f : X → Traced I Y) :
    (x >>= f).trace = x.trace ++ (f x.value).trace := rfl

/-- Every access has the property. -/
def All (P : I → Prop) (x : Traced I X) : Prop := ∀ i ∈ x.trace, P i

@[simp] theorem all_pure (x : X) : (pure x : Traced I X).All P := by simp [All]

/-- The accesses of a sequence are those of its parts. -/
@[simp] theorem all_bind {x : Traced I X} {f : X → Traced I Y} : (x >>= f).All P ↔ x.All P ∧ (f x.value).All P := by
  simp only [All, trace_bind, List.mem_append, or_imp, forall_and]

end Traced

end Xv6.Lib
