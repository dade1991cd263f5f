import Mathlib

/-!
# Circular lists threaded through a link

A list in which the link of each element leads to the next one. In a circular list the last link leads back to the
first element, so the list can be entered at any of them, and a walk along the links finds whatever is in it.
-/

namespace Xv6.Lib

open List (isChain_cons_cons append_of_mem cons_append mem_cons_self)

variable {B : Type*}

/-- Each element of the list is linked to the next. -/
def Threaded (next : B → B) (l : List B) : Prop := l.IsChain fun a b => next a = b

/-- Walk along the links to the first element with the property. -/
def walk (next : B → B) (stop : B → Bool) : ℕ → B → Option B
  | 0, _ => none
  | fuel + 1, p => if stop p then some p else walk next stop fuel (next p)

/-- More turns do not change what a walk finds. -/
theorem walk_mono {next : B → B} {stop : B → Bool} {fuel fuel' : ℕ} {p x : B} (h : walk next stop fuel p = some x)
    (hle : fuel ≤ fuel') : walk next stop fuel' p = some x := by
  induction fuel generalizing p fuel' with
  | zero => cases h
  | succ fuel ih =>
    obtain ⟨fuel', rfl⟩ := Nat.exists_eq_add_one.mpr (Nat.zero_lt_of_lt hle)
    rw [walk] at h ⊢
    split at h
    · next hstop => rwa [if_pos hstop]
    · next hstop =>
      rw [if_neg hstop]
      exact ih h (Nat.le_of_succ_le_succ hle)

section Threaded

variable {next : B → B} {l l₁ l₂ : List B} {x y z c : B}

theorem threaded_split : Threaded next (l₁ ++ c :: l₂) ↔ Threaded next (l₁ ++ [c]) ∧ Threaded next (c :: l₂) :=
  List.isChain_split

section

variable (h : Threaded next (l ++ [c]))

include h

/-- The links of the elements before the last one. -/
theorem Threaded.map_next : l.map next = (l ++ [c]).tail := by
  induction l with
  | nil => rfl
  | cons a l ih =>
    cases l with
    | nil =>
      have hlink : next a = c := (isChain_cons_cons.mp h).1
      rw [List.map_singleton, hlink]
      rfl
    | cons b l =>
      obtain ⟨hlink, hrest⟩ := isChain_cons_cons.mp h
      rw [List.map_cons, ih hrest, hlink]
      rfl

/-- Where an element is followed by another. -/
theorem Threaded.next_of_mem (hx : x ∈ l) :
    ∃ l₁ l₂, l ++ [c] = l₁ ++ x :: next x :: l₂ := by
  obtain ⟨l₁, rest, rfl⟩ := append_of_mem hx
  rw [List.append_assoc, cons_append] at h ⊢
  have htail := (threaded_split.mp h).2
  cases rest with
  | nil =>
    have hlink : next x = c := (isChain_cons_cons.mp htail).1
    exact ⟨l₁, [], by rw [hlink]; rfl⟩
  | cons y rest =>
    have hlink : next x = y := (isChain_cons_cons.mp htail).1
    exact ⟨l₁, rest ++ [c], by rw [hlink]; rfl⟩

variable {next' : B → B} {stop : B → Bool} {fuel : ℕ}

/-- The links of other elements do not matter. -/
theorem Threaded.congr (hsame : ∀ x ∈ l, next' x = next x) :
    Threaded next' (l ++ [c]) := by
  induction l with
  | nil => exact List.isChain_singleton c
  | cons a l ih =>
    cases l with
    | nil =>
      have hlink : next a = c := (isChain_cons_cons.mp h).1
      exact isChain_cons_cons.mpr ⟨(hsame a mem_cons_self).trans hlink, List.isChain_singleton c⟩
    | cons b l =>
      obtain ⟨hlink, hrest⟩ := isChain_cons_cons.mp h
      exact isChain_cons_cons.mpr ⟨(hsame a mem_cons_self).trans hlink,
        ih hrest fun x hx => hsame x (List.mem_cons_of_mem a hx)⟩

end

/-- Another element linked in place of the first. -/
theorem Threaded.relink (h : Threaded next (x :: l ++ [c])) (hy : next' y = next x)
    (hsame : ∀ z ∈ l, next' z = next z) :
    Threaded next' (y :: l ++ [c]) := by
  have hrest : Threaded next' (l ++ [c]) := (show Threaded next (l ++ [c]) from h.tail).congr hsame
  cases l with
  | nil | cons b l => exact isChain_cons_cons.mpr ⟨hy.trans (isChain_cons_cons.mp h).1, hrest⟩

variable (h : Threaded next (x :: l ++ [x]))

include h

/-- A circular list can be entered anywhere. -/
theorem Threaded.rotate (hy : y ∈ x :: l) : ∃ l', Threaded next (y :: l' ++ [y]) ∧ (y :: l').Perm (x :: l) := by
  rcases List.mem_cons.mp hy with rfl | hin
  · exact ⟨l, h, .refl _⟩
  obtain ⟨l₁, l₂, rfl⟩ := append_of_mem hin
  have hcut : x :: (l₁ ++ y :: l₂) ++ [x] = (x :: l₁) ++ y :: (l₂ ++ [x]) := by simp
  rw [hcut] at h
  obtain ⟨hfirst, hsecond⟩ := threaded_split.mp h
  refine ⟨l₂ ++ x :: l₁, ?_, ?_⟩
  · have hjoin : y :: (l₂ ++ x :: l₁) ++ [y] = (y :: l₂) ++ x :: (l₁ ++ [y]) := by simp
    rw [hjoin]
    exact threaded_split.mpr ⟨hsecond, hfirst⟩
  · rw [← cons_append, ← cons_append]
    exact List.perm_append_comm

/-- In a circular list no two links lead to the same element. -/
theorem Threaded.inj (hnodup : (x :: l).Nodup) (hy : y ∈ x :: l) (hz : z ∈ x :: l) (heq : next y = next z) : y = z := by
  have hmap : (x :: l).map next = l ++ [x] := h.map_next
  have hnodup' : ((x :: l).map next).Nodup := by
    rw [hmap]
    exact (List.perm_append_singleton x l).nodup_iff.mpr hnodup
  exact List.inj_on_of_nodup_map hnodup' hy hz heq

omit h in
/-- A walk passes the elements without the property. -/
theorem Threaded.walk (h : Threaded next (l ++ [c])) (hl : (l ++ [c]).head? = some x) (hpass : ∀ a ∈ l, stop a = false)
    (hstop : stop c = true) (hfuel : l.length < fuel) : Lib.walk next stop fuel x = some c := by
  induction l generalizing x fuel with
  | nil =>
    obtain ⟨fuel, rfl⟩ := Nat.exists_eq_add_one.mpr hfuel
    obtain rfl : c = x := Option.some.inj hl
    rw [Lib.walk, if_pos hstop]
  | cons a l ih =>
    obtain ⟨fuel, rfl⟩ := Nat.exists_eq_add_one.mpr (Nat.zero_lt_of_lt hfuel)
    obtain rfl : a = x := Option.some.inj hl
    have hpassed : ¬stop a = true := by
      rw [hpass a mem_cons_self]
      exact Bool.false_ne_true
    rw [Lib.walk, if_neg hpassed]
    refine ih h.tail ?_ (fun b hb => hpass b (List.mem_cons_of_mem a hb)) (Nat.lt_of_succ_lt_succ hfuel)
    cases l with
    | nil | cons b l => exact congrArg some (isChain_cons_cons.mp h).1.symm

/-- A walk around a circular list finds the only element with the property. -/
theorem Threaded.walk_circle (hnodup : (x :: l).Nodup) (hc : c ∈ x :: l) (hstop : ∀ a ∈ x :: l, stop a = true ↔ a = c)
    (hy : y ∈ x :: l) (hfuel : l.length < fuel) : Lib.walk next stop fuel y = some c := by
  obtain ⟨l', hcircle, hperm⟩ := h.rotate hy
  obtain ⟨l₁, l₂, hl⟩ := append_of_mem (hperm.mem_iff.mpr hc)
  have hcut : y :: l' ++ [y] = l₁ ++ c :: (l₂ ++ [y]) := by rw [hl, List.append_assoc, cons_append]
  rw [hcut] at hcircle
  have hnodup' : (l₁ ++ c :: l₂).Nodup := hl ▸ hperm.nodup_iff.mpr hnodup
  have hlength : l₁.length ≤ l.length := by
    have heq := hperm.length_eq
    rw [hl, List.length_append, List.length_cons, List.length_cons] at heq
    omega
  refine (threaded_split.mp hcircle).1.walk ?_ (fun a ha => ?_) ((hstop c hc).mpr rfl) (by omega)
  · cases l₁ with
    | nil | cons a l₁ => exact congrArg some (List.cons.inj hl).1.symm
  · have hin : a ∈ x :: l := hperm.mem_iff.mp (hl ▸ List.mem_append_left _ ha)
    rw [← Bool.not_eq_true, hstop a hin]
    rintro rfl
    exact (List.disjoint_of_nodup_append hnodup') ha mem_cons_self

end Threaded

end Xv6.Lib
