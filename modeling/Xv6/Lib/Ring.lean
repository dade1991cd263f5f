import Mathlib

/-!
# Ring buffers with counters that wrap around

A ring buffer whose two 32-bit counters only ever grow, and wrap around. The size of the ring divides the range of
the counters, so the place of an element does not depend on how often they have wrapped.
-/

namespace Xv6.Lib

open List (length_append length_singleton)
open UInt32 (toNat_ofNat' toNat_mod toNat_sub toNat_inj toNat_add)

variable {X : Type*}

/-- The ring holds the elements of `stored` that have not been `taken`. -/
structure Ring (size : UInt32) (data : ℕ → X) (nread nwrite : UInt32) (taken stored : List X) : Prop where
  divides : size.toNat ∣ 2 ^ 32
  pos : 0 < size.toNat
  nread_eq : nread = UInt32.ofNat taken.length
  nwrite_eq : nwrite = UInt32.ofNat stored.length
  pre : taken <+: stored
  room : stored.length ≤ taken.length + size.toNat
  data_eq : ∀ k x, stored[k]? = some x → taken.length ≤ k → data (k % size.toNat) = x

namespace Ring

variable {size nread nwrite : UInt32} {data : ℕ → X} {taken stored rest : List X} {x : X}

/-- A new ring. -/
theorem new (hdiv : size.toNat ∣ 2 ^ 32) (hpos : 0 < size.toNat) (data : ℕ → X) : Ring size data 0 0 [] [] where
  divides := hdiv
  pos := hpos
  nread_eq := rfl
  nwrite_eq := rfl
  pre := List.prefix_rfl
  room := by simp
  data_eq := by simp

section Counters

variable (h : Ring size data nread nwrite taken stored)

include h

theorem toNat_nread : nread.toNat = taken.length % 2 ^ 32 := by
  rw [h.nread_eq, toNat_ofNat']

theorem toNat_nwrite : nwrite.toNat = stored.length % 2 ^ 32 := by
  rw [h.nwrite_eq, toNat_ofNat']

/-- The counter finds the place of an element, however often it has wrapped. -/
theorem place : (nwrite % size).toNat = stored.length % size.toNat := by
  rw [toNat_mod, h.toNat_nwrite, Nat.mod_mod_of_dvd _ h.divides]

theorem place_nread : (nread % size).toNat = taken.length % size.toNat := by
  rw [toNat_mod, h.toNat_nread, Nat.mod_mod_of_dvd _ h.divides]

/-- The difference of the counters is the number of elements. -/
theorem count : (nwrite - nread).toNat = stored.length - taken.length := by
  have hr := h.toNat_nread
  have hw := h.toNat_nwrite
  have hle := h.pre.length_le
  have hroom := h.room
  have hsize := size.toNat_lt
  rw [toNat_sub]
  omega

theorem full_iff : nwrite = nread + size ↔ stored.length = taken.length + size.toNat := by
  have hr := h.toNat_nread
  have hw := h.toNat_nwrite
  have hle := h.pre.length_le
  have hroom := h.room
  have hsize := size.toNat_lt
  rw [← toNat_inj, toNat_add]
  omega

theorem empty_iff : nread = nwrite ↔ stored.length = taken.length := by
  have hr := h.toNat_nread
  have hw := h.toNat_nwrite
  have hle := h.pre.length_le
  have hroom := h.room
  have hsize := size.toNat_lt
  rw [← toNat_inj]
  omega

end Counters

theorem ofNat_succ (n : ℕ) : UInt32.ofNat n + 1 = UInt32.ofNat (n + 1) := by
  simp

/-- Two places less than a round apart are different. -/
theorem mod_ne_mod {m n k : ℕ} (hlt : m < n) (hround : n < m + k) : m % k ≠ n % k := by
  intro heq
  have hzero := Nat.sub_mod_eq_zero_of_mod_eq heq.symm
  rw [Nat.mod_eq_of_lt (by omega)] at hzero
  omega

section

variable (h : Ring size data nread nwrite taken stored)

include h

/-- An element is stored in a ring that is not full. -/
theorem put (hfull : nwrite ≠ nread + size) (x : X) :
    Ring size (Function.update data (nwrite % size).toNat x) nread (nwrite + 1) taken (stored ++ [x]) := by
  have hroom := h.room
  have hne : stored.length ≠ taken.length + size.toNat := fun heq => hfull (h.full_iff.mpr heq)
  refine { h with nwrite_eq := ?_, pre := h.pre.trans (List.prefix_append ..), room := ?_, data_eq := ?_ }
  · rw [h.nwrite_eq, ofNat_succ, length_append, length_singleton]
  · rw [length_append, length_singleton]
    omega
  intro k y hk hle
  rw [h.place]
  by_cases hlast : k = stored.length
  · subst hlast
    simpa using hk
  have hlt : k < stored.length := by
    have hbound := (List.getElem?_eq_some_iff.mp hk).1
    rw [length_append, length_singleton] at hbound
    omega
  rw [Function.update_of_ne (mod_ne_mod hlt (by omega))]
  rw [List.getElem?_append_left hlt] at hk
  exact h.data_eq k y hk hle

/-- The next element is taken from a ring that is not empty. -/
theorem take (hempty : nread ≠ nwrite) :
    Ring size data (nread + 1) nwrite (taken ++ [data (nread % size).toNat]) stored := by
  have hroom := h.room
  have hle := h.pre.length_le
  have hne : stored.length ≠ taken.length := fun heq => hempty (h.empty_iff.mpr heq)
  have hlt : taken.length < stored.length := by omega
  have hnext : data (nread % size).toNat = stored[taken.length] := by
    rw [h.place_nread]
    exact h.data_eq _ _ (List.getElem?_eq_getElem hlt) (Nat.le_refl _)
  have htake : taken ++ [stored[taken.length]] = stored.take (taken.length + 1) := by
    rw [List.take_succ_eq_append_getElem hlt, ← List.prefix_iff_eq_take.mp h.pre]
  rw [hnext]
  refine { h with nread_eq := ?_, pre := ?_, room := ?_, data_eq := fun k y hk hk' => h.data_eq k y hk ?_ }
  · rw [h.nread_eq, ofNat_succ, length_append, length_singleton]
  · rw [htake]
    exact List.take_prefix ..
  · rw [length_append, length_singleton]
    omega
  · rw [length_append, length_singleton] at hk'
    omega

omit h in
/-- The next element to take. -/
theorem next (h : Ring size data nread nwrite taken (taken ++ x :: rest)) : data (nread % size).toNat = x := by
  rw [h.place_nread]
  exact h.data_eq _ _ (by simp) (Nat.le_refl _)

omit h in
/-- The last element that was stored. -/
theorem last (h : Ring size data nread nwrite taken (rest ++ [x])) (hlt : taken.length ≤ rest.length) :
    data ((nwrite - 1) % size).toNat = x := by
  have hw : (nwrite - 1).toNat = rest.length % 2 ^ 32 := by
    have hw := h.toNat_nwrite
    rw [length_append, length_singleton] at hw
    rw [toNat_sub, hw]
    have hone : (1 : UInt32).toNat = 1 := rfl
    omega
  rw [toNat_mod, hw, Nat.mod_mod_of_dvd _ h.divides]
  exact h.data_eq _ _ (by simp) hlt

/-- The elements before one that was stored are a ring as well. -/
theorem shorten {stored' : List X} (hpre : taken <+: stored') (hstored : stored' <+: stored) :
    Ring size data nread (UInt32.ofNat stored'.length) taken stored' where
  divides := h.divides
  pos := h.pos
  nread_eq := h.nread_eq
  nwrite_eq := rfl
  pre := hpre
  room := Nat.le_trans hstored.length_le h.room
  data_eq k x hk hle := by
    obtain ⟨rest, rfl⟩ := hstored
    refine h.data_eq k x ?_ hle
    rw [List.getElem?_append_left (List.getElem?_eq_some_iff.mp hk).1]
    exact hk

end

/-- The last element is taken back. -/
theorem erase (h : Ring size data nread nwrite taken (rest ++ [x])) (hpre : taken <+: rest) :
    Ring size data nread (nwrite - 1) taken rest := by
  have hw : nwrite - 1 = UInt32.ofNat rest.length := by
    rw [h.nwrite_eq, length_append, length_singleton, ← ofNat_succ, UInt32.add_sub_cancel]
  rw [hw]
  exact h.shorten hpre (List.prefix_append ..)

end Ring

end Xv6.Lib
