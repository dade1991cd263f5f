import Mathlib

/-!
# Exact ownership of allocated items

Slots hold items, with a distinguished item for an empty slot. An allocation table is
exact when no item is held by two slots and the items marked as used are those that some
slot holds. Giving a free item to an empty slot and taking an item back from its slot both
keep the table exact.
-/

namespace Xv6.Lib

variable {S B : Type*} [Zero B]

/-- No item is held twice and the used items are those held by some slot; `0` is no item. -/
structure Exact (own : S → B) (used : B → Prop) : Prop where
  inj : ∀ s t, own s ≠ 0 → own s = own t → s = t
  used_iff : ∀ b, used b ↔ b ≠ 0 ∧ ∃ s, own s = b

namespace Exact

variable {own own' : S → B} {used used' : B → Prop}

variable (h : Exact own used)

include h

theorem used_own (s : S) (hs : own s ≠ 0) : used (own s) :=
  (h.used_iff (own s)).mpr ⟨hs, s, rfl⟩

/-- A free item can be given to an empty slot. -/
theorem assign [DecidableEq S] {s : S} {b : B} (hempty : own s = 0) (hb : b ≠ 0) (hfree : ¬used b)
    (hown : ∀ t, own' t = if t = s then b else own t) (hused : ∀ c, used' c ↔ c = b ∨ used c) : Exact own' used' where
  inj := by
    intro t u ht htu
    have hheld : ∀ v, own v ≠ b := by
      intro v hv
      exact hfree (hv ▸ h.used_own v (hv ▸ hb))
    rw [hown t] at ht
    rw [hown t, hown u] at htu
    split at htu <;> split at htu
    · next htS huS => rw [htS, huS]
    · exact absurd htu.symm (hheld u)
    · exact absurd htu (hheld t)
    · next htS huS =>
      rw [if_neg htS] at ht
      exact h.inj t u ht htu
  used_iff := by
    intro c
    rw [hused, h.used_iff]
    constructor
    · rintro (rfl | ⟨hc, t, ht⟩)
      · exact ⟨hb, s, by rw [hown, if_pos rfl]⟩
      · refine ⟨hc, t, ?_⟩
        rw [hown, if_neg, ht]
        rintro rfl
        exact hc (ht ▸ hempty)
    · rintro ⟨hc, t, ht⟩
      rw [hown] at ht
      split at ht
      · exact .inl ht.symm
      · exact .inr ⟨hc, t, ht⟩

/-- The item of a slot can be taken back. -/
theorem release [DecidableEq S] {s : S} (hheld : own s ≠ 0) (hown : ∀ t, own' t = if t = s then 0 else own t)
    (hused : ∀ c, used' c ↔ c ≠ own s ∧ used c) : Exact own' used' where
  inj := by
    intro t u ht htu
    rw [hown t] at ht
    rw [hown t, hown u] at htu
    split at htu
    · next hts => exact absurd (if_pos hts) ht
    next hts =>
    rw [if_neg hts] at ht
    split at htu
    · exact absurd htu ht
    · exact h.inj t u ht htu
  used_iff := by
    intro c
    rw [hused, h.used_iff]
    constructor
    · rintro ⟨hcs, hc, t, ht⟩
      refine ⟨hc, t, ?_⟩
      rw [hown, if_neg, ht]
      rintro rfl
      exact hcs ht.symm
    rintro ⟨hc, t, ht⟩
    rw [hown] at ht
    split at ht
    · exact absurd ht.symm hc
    · next hts =>
      refine ⟨?_, hc, t, ht⟩
      rintro rfl
      exact hts (h.inj t s (ht.symm ▸ hc) ht)

/-- Taking no item changes nothing: the same slots hold the same items. -/
theorem congr (hown : ∀ t, own' t = own t) (hused : ∀ c, used' c ↔ used c) : Exact own' used' where
  inj t u ht htu := h.inj t u (hown t ▸ ht) (by rw [← hown t, ← hown u, htu])
  used_iff c := by simp only [hused, h.used_iff, hown]

/-- Along a list of distinct slots no item occurs twice. -/
theorem nodup [DecidableEq B] (slots : List S) (hslots : slots.Nodup) : ((slots.map own).filter (· ≠ 0)).Nodup := by
  induction slots with
  | nil => simp
  | cons s rest ih =>
    obtain ⟨hs, hrest⟩ := List.nodup_cons.mp hslots
    rw [List.map_cons, List.filter_cons]
    split
    · next hheld =>
      refine List.nodup_cons.mpr ⟨?_, ih hrest⟩
      intro hmem
      obtain ⟨t, ht, hts⟩ := List.mem_map.mp (List.mem_of_mem_filter hmem)
      rw [h.inj s t (by simpa using hheld) hts.symm] at hs
      exact hs ht
    · exact ih hrest

end Exact

end Xv6.Lib
