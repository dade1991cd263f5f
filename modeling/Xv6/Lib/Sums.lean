import Mathlib

/-!
# Sums over a finite table

A table is a function with finitely many entries of interest. Sums of a measure of its entries change by
one term when one entry is replaced.
-/

namespace Xv6.Lib

variable {A B M : Type*}

/-- Replacing one entry changes one term of the sum. -/
theorem sum_update [DecidableEq A] [AddCommMonoid M] (s : Finset A) (g : B → M) (f : A → B) {a : A} (ha : a ∈ s)
    (b : B) : ∑ x ∈ s, g (Function.update f a b x) + g (f a) = ∑ x ∈ s, g (f x) + g b := by
  have hrest : ∑ x ∈ s.erase a, g (Function.update f a b x) = ∑ x ∈ s.erase a, g (f x) :=
    Finset.sum_congr rfl fun x hx => by rw [Function.update_of_ne (Finset.ne_of_mem_erase hx)]
  rw [← Finset.add_sum_erase s _ ha, ← Finset.add_sum_erase s (fun x => g (f x)) ha, hrest,
    Function.update_self]
  abel

/-- A sum over the first numbers, in order. -/
theorem sum_range_eq_list [AddCommMonoid M] (n : ℕ) (f : ℕ → M) :
    ∑ d ∈ Finset.range n, f d = ((List.range n).map f).sum := rfl

/-- Two entries whose terms are not zero make the sum at least two. -/
theorem two_le_sum {s : Finset A} {g : A → ℕ} {a b : A} (hab : a ≠ b) (ha : a ∈ s) (hb : b ∈ s)
    (hga : g a ≠ 0) (hgb : g b ≠ 0) : 2 ≤ ∑ x ∈ s, g x := by
  have hle := Finset.add_le_sum (fun x _ => Nat.zero_le (g x)) ha hb hab
  omega

end Xv6.Lib
