import Mathlib

/-!
# Copying bytes

`memmove` of the kernel and of the user library. The kernel's goes backwards where the destination lies behind the
source and overlaps it; the user library's always goes forwards, so that it repeats the bytes before the destination.
-/

namespace Xv6

open Function (update update_self update_of_ne)

namespace Memmove

/-- `while(n-- > 0) *d++ = *s++`. -/
def forward (mem : ℕ → UInt8) (d s : ℕ) : ℕ → ℕ → UInt8
  | 0 => mem
  | n + 1 => forward (update mem d (mem s)) (d + 1) (s + 1) n

/-- `while(n-- > 0) *--d = *--s`. -/
def backward (mem : ℕ → UInt8) (d s : ℕ) : ℕ → ℕ → UInt8
  | 0 => mem
  | n + 1 => backward (update mem (d - 1) (mem (s - 1))) (d - 1) (s - 1) n

end Memmove

open Memmove

/-- `memmove` of `string.c`. The end of the source is computed in 32 bits. -/
def Kernel.memmove (mem : ℕ → UInt8) (dst src n : ℕ) : ℕ → UInt8 :=
  if src < dst ∧ dst < (src + n) % 2 ^ 32 then backward mem (dst + n) (src + n) n else forward mem dst src n

/-- `memmove` of `ulib.c`, where `n` is an `int`, below `2 ^ 31`. -/
def Ulib.memmove (mem : ℕ → UInt8) (dst src : ℕ) (n : ℤ) : ℕ → UInt8 := forward mem dst src n.toNat

namespace Memmove

/-- The destination has the bytes that the source had, and no other byte changed. -/
def Moved (mem mem' : ℕ → UInt8) (dst src n : ℕ) : Prop :=
  (∀ i < n, mem' (dst + i) = mem (src + i)) ∧ ∀ a, a < dst ∨ dst + n ≤ a → mem' a = mem a

/-- The destination is not in the source behind its first byte, or the source repeats itself in the overlap. -/
def Forwards (mem : ℕ → UInt8) (dst src n : ℕ) : Prop :=
  dst ≤ src ∨ src + n ≤ dst ∨ ∀ i, dst + i < src + n → mem (dst + i) = mem (src + i)

variable {mem mem₁ mem₂ : ℕ → UInt8} {dst src d s a i n : ℕ}

theorem Moved.unique (h₁ : Moved mem mem₁ dst src n) (h₂ : Moved mem mem₂ dst src n) : mem₁ = mem₂ := by
  funext a
  by_cases ha : a < dst ∨ dst + n ≤ a
  · rw [h₁.2 a ha, h₂.2 a ha]
  · obtain ⟨i, rfl⟩ := Nat.exists_eq_add_of_le (not_lt.mp (not_or.mp ha).1)
    rw [h₁.1 i (by omega), h₂.1 i (by omega)]

theorem forward_of_outside (h : a < d ∨ d + n ≤ a) : forward mem d s n a = mem a := by
  induction n generalizing mem d s with
  | zero => rfl
  | succ n ih => rw [forward, ih (by omega), update_of_ne (by omega)]

/-- A byte of the source that is written later is read before. -/
theorem forward_moved (h : ∀ i < n, i ≠ 0 → src + i ≠ dst) : Moved mem (forward mem dst src n) dst src n := by
  refine ⟨fun i hi => ?_, fun a => forward_of_outside⟩
  induction n generalizing mem dst src i with
  | zero => omega
  | succ n ih =>
    rw [forward]
    cases i with
    | zero => exact (forward_of_outside (by omega)).trans (update_self ..)
    | succ i =>
      have hrest := @ih (update mem dst (mem src)) (dst + 1) (src + 1)
        (fun j hj hne heq => h j (by omega) hne (by omega)) i (by omega)
      rw [show dst + (i + 1) = dst + 1 + i by ring, hrest, show src + 1 + i = src + (i + 1) by ring,
        update_of_ne (h (i + 1) hi (by omega))]

theorem backward_moved (h : src < dst) : Moved mem (backward mem (dst + n) (src + n) n) dst src n := by
  induction n generalizing mem with
  | zero => exact ⟨nofun, fun _ _ => rfl⟩
  | succ n ih =>
    obtain ⟨hin, hout⟩ := @ih (update mem (dst + n) (mem (src + n)))
    have hstep : backward mem (dst + (n + 1)) (src + (n + 1)) (n + 1) =
        backward (update mem (dst + n) (mem (src + n))) (dst + n) (src + n) n := rfl
    rw [hstep]
    refine ⟨fun i hi => ?_, fun a ha => ?_⟩
    · by_cases hlast : i = n
      · rw [hlast, hout _ (.inr le_rfl), update_self]
      · rw [hin i (by omega), update_of_ne (by omega)]
    · rw [hout a (by omega), update_of_ne (by omega)]

/-- What is read has its last value if the source is before the destination. -/
theorem forward_repeats (h : s < d) (hi : i < n) : forward mem d s n (d + i) = forward mem d s n (s + i) := by
  induction n generalizing mem d s i with
  | zero => omega
  | succ n ih =>
    rw [forward]
    cases i with
    | zero =>
      have hfirst : update mem d (mem s) d = update mem d (mem s) s := by rw [update_self, update_of_ne h.ne]
      exact (forward_of_outside (by omega)).trans (hfirst.trans (forward_of_outside (by omega)).symm)
    | succ i =>
      rw [show d + (i + 1) = d + 1 + i by ring, show s + (i + 1) = s + 1 + i by ring, ih (by omega) (by omega)]

theorem forward_moved_iff : Moved mem (forward mem dst src n) dst src n ↔ Forwards mem dst src n := by
  by_cases hapart : dst ≤ src ∨ src + n ≤ dst
  · refine iff_of_true (forward_moved fun i hi hne => by omega) (hapart.imp_right .inl)
  obtain ⟨hlt, hover⟩ := not_or.mp hapart
  rw [Forwards, or_iff_right hlt, or_iff_right hover]
  obtain ⟨k, rfl⟩ := Nat.exists_eq_add_of_le (le_of_not_ge hlt)
  have hback (i : ℕ) (hi : k + i < n) : forward mem (src + k) src n (src + k + (k + i)) =
      forward mem (src + k) src n (src + k + i) := by
    rw [forward_repeats (by omega) hi, Nat.add_assoc src k i]
  constructor
  · intro hmoved i hi
    rw [← hmoved.1 i (by omega), ← hback i (by omega), hmoved.1 (k + i) (by omega), Nat.add_assoc]
  · refine fun hperiod => ⟨fun i => ?_, fun a => forward_of_outside⟩
    induction i using Nat.strongRecOn with
    | _ i ih =>
      intro hi
      by_cases hik : i < k
      · rw [forward_repeats (by omega) hi, forward_of_outside (by omega)]
      · obtain ⟨j, rfl⟩ := Nat.exists_eq_add_of_le (not_lt.mp hik)
        rw [hback j hi, ih j (by omega) (by omega), ← hperiod j (by omega), Nat.add_assoc]

/-- The kernel's `memmove` copies right whether the regions overlap or not. The user library's does so, and agrees with
it, exactly if the destination does not lie behind the source in an overlap, or the source repeats itself with the
distance between them. -/
theorem memmove_exact_iff (mem : ℕ → UInt8) (dst src n : ℕ) (hdst : dst + n ≤ 2 ^ 32) (hsrc : src + n ≤ 2 ^ 32) :
    Moved mem (Kernel.memmove mem dst src n) dst src n ∧
      (Moved mem (Ulib.memmove mem dst src n) dst src n ↔ Forwards mem dst src n) ∧
      (Ulib.memmove mem dst src n = Kernel.memmove mem dst src n ↔ Forwards mem dst src n) := by
  have hkernel : Moved mem (Kernel.memmove mem dst src n) dst src n := by
    unfold Kernel.memmove
    split
    · next hover => exact backward_moved hover.1
    · next hapart =>
      refine forward_moved fun i hi hne heq => hapart ⟨by omega, ?_⟩
      -- the destination does not wrap, so the end of the source does not either
      omega
  have huser : Moved mem (Ulib.memmove mem dst src n) dst src n ↔ Forwards mem dst src n := by
    exact forward_moved_iff
  exact ⟨hkernel, huser, .trans ⟨fun heq => heq ▸ hkernel, fun hmoved => hmoved.unique hkernel⟩ huser⟩

/-- Two regions that touch. -/
theorem memmove_exact_iff_apart :
    Ulib.memmove (fun a => UInt8.ofNat a) 4096 4088 8 = Kernel.memmove (fun a => UInt8.ofNat a) 4096 4088 8 :=
  ((memmove_exact_iff _ 4096 4088 8 (by decide) (by decide)).2.2).mpr (.inr (.inl le_rfl))

/-- Two bytes are moved by one: the user library copies the first one twice. -/
theorem ulib_memmove_overlap : ¬Moved (fun a => UInt8.ofNat a) (Ulib.memmove (fun a => UInt8.ofNat a) 1 0 2) 1 0 2 ∧
    Moved (fun a => UInt8.ofNat a) (Kernel.memmove (fun a => UInt8.ofNat a) 1 0 2) 1 0 2 :=
  ⟨fun h => absurd (h.1 1 (by decide)) (by decide), backward_moved (by decide)⟩

end Memmove

end Xv6
