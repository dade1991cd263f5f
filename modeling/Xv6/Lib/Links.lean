import Mathlib

/-!
# Circular doubly linked lists

A list through the links of its elements and of a head, which is the node `none`. Where the list is cut in two, the
last node before the cut and the first one after it are linked to each other; an empty part stands for the head.
-/

namespace Xv6.Lib

open Function (update update_self update_of_ne)

variable {B : Type*}

structure Links (B : Type*) where
  next : Option B → Option B
  prev : Option B → Option B

/-- The links lead from the head through exactly these elements and back. -/
def Links.Linked (k : Links B) (l : List B) : Prop :=
  ∀ l₁ l₂, l = l₁ ++ l₂ → k.next l₁.getLast? = l₂.head? ∧ k.prev l₂.head? = l₁.getLast?

/-- Walk from a node on, to the first element with the property or to the head. -/
def scan (walk : Option B → Option B) (p : B → Bool) : ℕ → Option B → Option (Option B)
  | 0, _ => none
  | _ + 1, none => some none
  | fuel + 1, some b => if p b = true then some (some b) else scan walk p fuel (walk (some b))

namespace Links

variable {k : Links B} {l : List B} {p : B → Bool} {fuel : ℕ} {l₁ l₂ : List B}

/-- A walk along `next` sees the rest of the list. -/
theorem Linked.scan_suffix (h : k.Linked l) (hl : l = l₁ ++ l₂) (hfuel : l₂.length < fuel) :
    scan k.next p fuel l₂.head? = some (l₂.find? p) := by
  induction l₂ generalizing l₁ fuel with
  | nil =>
    obtain ⟨fuel, rfl⟩ := Nat.exists_eq_add_one.mpr hfuel
    rfl
  | cons b rest ih =>
    obtain ⟨fuel, rfl⟩ := Nat.exists_eq_add_one.mpr (Nat.zero_lt_of_lt hfuel)
    have hl' : l = (l₁ ++ [b]) ++ rest := by rw [hl, List.append_assoc, List.singleton_append]
    have hnext := (h _ _ hl').1
    rw [List.getLast?_append, List.getLast?_singleton, Option.some_or] at hnext
    rw [List.head?_cons, scan, hnext, ih hl' (Nat.lt_of_succ_lt_succ hfuel), List.find?_cons]
    cases p b <;> rfl

/-- A walk along `prev` sees the part before, from its end. -/
theorem Linked.scan_prefix (h : k.Linked l) (hl : l = l₁ ++ l₂) (hfuel : l₁.length < fuel) :
    scan k.prev p fuel l₁.getLast? = some (l₁.reverse.find? p) := by
  induction l₁ using List.reverseRecOn generalizing l₂ fuel with
  | nil =>
    obtain ⟨fuel, rfl⟩ := Nat.exists_eq_add_one.mpr hfuel
    rfl
  | append_singleton rest b ih =>
    obtain ⟨fuel, rfl⟩ := Nat.exists_eq_add_one.mpr (Nat.zero_lt_of_lt hfuel)
    have hl' : l = rest ++ (b :: l₂) := by rw [hl, List.append_assoc, List.singleton_append]
    have hprev := (h _ _ hl').2
    rw [List.head?_cons] at hprev
    have hlen : rest.length < fuel := by
      rw [List.length_append, List.length_singleton] at hfuel
      exact Nat.lt_of_succ_lt_succ hfuel
    rw [List.getLast?_append, List.getLast?_singleton, Option.some_or, scan, hprev, ih hl' hlen,
      List.reverse_append, List.reverse_singleton, List.singleton_append, List.find?_cons]
    cases p b <;> rfl

/-- The loop from the first element to the head. -/
theorem Linked.scan_next (h : k.Linked l) (hfuel : l.length < fuel) :
    scan k.next p fuel (k.next none) = some (l.find? p) := by
  have hnext := (h [] l rfl).1
  rw [List.getLast?_nil] at hnext
  rw [hnext]
  exact h.scan_suffix (List.nil_append l).symm hfuel

/-- The loop from the last element back to the head. -/
theorem Linked.scan_prev (h : k.Linked l) (hfuel : l.length < fuel) :
    scan k.prev p fuel (k.prev none) = some (l.reverse.find? p) := by
  have hprev := (h l [] (List.append_nil l).symm).2
  rw [List.head?_nil] at hprev
  rw [hprev]
  exact h.scan_prefix (List.append_nil l).symm hfuel

variable [DecidableEq B]

/-- `b->next->prev = b->prev; b->prev->next = b->next;` -/
def unlink (k : Links B) (b : B) : Links B :=
  let prev := update k.prev (k.next (some b)) (k.prev (some b))
  { next := update k.next (prev (some b)) (k.next (some b)), prev := prev }

/-- `b->next = head.next; b->prev = &head; head.next->prev = b; head.next = b;` -/
def insert (k : Links B) (b : B) : Links B :=
  let next := update k.next (some b) (k.next none)
  let prev := update k.prev (some b) none
  { next := update next none (some b), prev := update prev (next none) (some b) }

/-- The links of a head alone. -/
def empty : Links B where
  next _ := none
  prev _ := none

omit [DecidableEq B] in
theorem linked_empty : (empty : Links B).Linked [] := by
  intro l₁ l₂ h
  obtain ⟨rfl, rfl⟩ := List.append_eq_nil_iff.mp h.symm
  exact ⟨rfl, rfl⟩

variable {b : B}

omit [DecidableEq B] in
/-- In a list without duplicates, the end of one part is not in the other. -/
theorem getLast?_ne (hdisjoint : l₁.Disjoint l₂) (hne : l₂ ≠ []) : l₁.getLast? ≠ l₂.getLast? := by
  intro heq
  cases hlast : l₂.getLast? with
  | none => exact hne (List.getLast?_eq_none_iff.mp hlast)
  | some x =>
    rw [hlast] at heq
    exact hdisjoint (List.mem_of_getLast? heq) (List.mem_of_getLast? hlast)

omit [DecidableEq B] in
theorem head?_ne (hdisjoint : l₁.Disjoint l₂) (hne : l₁ ≠ []) : l₁.head? ≠ l₂.head? := by
  intro heq
  cases hhead : l₁.head? with
  | none => exact hne (List.head?_eq_none_iff.mp hhead)
  | some x =>
    rw [hhead] at heq
    exact hdisjoint (List.mem_of_head? hhead) (List.mem_of_head? heq.symm)

/-- A new element comes first. -/
theorem Linked.insert (h : k.Linked l) (hnodup : l.Nodup) (hb : b ∉ l) : (k.insert b).Linked (b :: l) := by
  have hfirst : k.next none = l.head? := (h [] l rfl).1
  have hnext : update k.next (some b) (k.next none) none = l.head? := by
    rw [update_of_ne (by simp), hfirst]
  intro l₁ l₂ hl
  simp only [Links.insert, hnext]
  cases l₁ with
  | nil =>
    obtain rfl : b :: l = l₂ := hl
    have hne : some b ≠ l.head? := fun heq => hb (List.mem_of_head? heq.symm)
    exact ⟨update_self .., by simp [update_of_ne hne]⟩
  | cons c rest =>
    obtain ⟨rfl, hrest⟩ := List.cons.inj hl
    obtain rfl : l = rest ++ l₂ := hrest
    cases rest with
    | nil => exact ⟨by simp [hfirst], by simp⟩
    | cons d rest =>
      have hold := h (d :: rest) l₂ rfl
      have hlast : (b :: d :: rest).getLast? = (d :: rest).getLast? := by simp [List.getLast?_cons]
      have hnb : (d :: rest).getLast? ≠ some b := fun heq =>
        hb (List.mem_append_left _ (List.mem_of_getLast? heq))
      have hn : (d :: rest).getLast? ≠ none := by simp
      have hpb : l₂.head? ≠ some b := fun heq => hb (List.mem_append_right _ (List.mem_of_head? heq))
      have hpd : l₂.head? ≠ (d :: rest ++ l₂).head? := by
        have hdisjoint : (d :: rest).Disjoint l₂ := List.disjoint_of_nodup_append hnodup
        have hne := head?_ne hdisjoint (List.cons_ne_nil d rest)
        exact fun heq => hne heq.symm
      rw [hlast, update_of_ne hn, update_of_ne hnb, update_of_ne hpd,
        update_of_ne hpb]
      exact hold

/-- An element is taken out. -/
theorem Linked.unlink (h : k.Linked (l₁ ++ b :: l₂)) (hnodup : (l₁ ++ b :: l₂).Nodup) :
    (k.unlink b).Linked (l₁ ++ l₂) := by
  have hprev : k.prev (some b) = l₁.getLast? := (h l₁ (b :: l₂) rfl).2
  have hnext : k.next (some b) = l₂.head? := by
    have hcut := (h (l₁ ++ [b]) l₂ (by simp)).1
    simpa [List.getLast?_append] using hcut
  have hdisjoint : l₁.Disjoint (b :: l₂) := List.disjoint_of_nodup_append hnodup
  have hb₂ : b ∉ l₂ := (List.nodup_cons.mp (List.nodup_append.mp hnodup).2.1).1
  have hbne : some b ≠ l₂.head? := fun heq => hb₂ (List.mem_of_head? heq.symm)
  intro c₁ c₂ hc
  simp only [Links.unlink, hprev, hnext, update_of_ne hbne]
  rcases List.append_eq_append_iff.mp hc with ⟨m, rfl, rfl⟩ | ⟨m, rfl, rfl⟩
  · -- the cut is after the element
    by_cases hm : m = []
    · subst hm
      simp
    have hold := h (l₁ ++ b :: m) c₂ (by simp)
    have hlast : (l₁ ++ b :: m).getLast? = m.getLast? := by
      rw [List.append_cons, List.getLast?_append_of_ne_nil _ hm]
    have hn : m.getLast? ≠ l₁.getLast? :=
      (getLast?_ne (fun x h₁ hx => hdisjoint h₁ (by simp [hx])) hm).symm
    have hp : c₂.head? ≠ m.head? := by
      have hnodup₂ := (List.nodup_cons.mp (List.nodup_append.mp hnodup).2.1).2
      exact (head?_ne (List.disjoint_of_nodup_append hnodup₂) hm).symm
    rw [List.getLast?_append_of_ne_nil _ hm, List.head?_append_of_ne_nil _ hm, update_of_ne hn,
      update_of_ne hp, ← hlast]
    exact hold
  · -- the cut is before the element
    by_cases hm : m = []
    · subst hm
      simp
    have hold := h c₁ (m ++ b :: l₂) (by simp)
    rw [List.head?_append_of_ne_nil _ hm] at hold
    have hn : c₁.getLast? ≠ m.getLast? := by
      have hnodup₁ := (List.nodup_append.mp hnodup).1
      exact getLast?_ne (List.disjoint_of_nodup_append hnodup₁) hm
    have hp : m.head? ≠ l₂.head? :=
      head?_ne (fun x hx h₂ => hdisjoint (List.mem_append_right _ hx) (List.mem_cons_of_mem b h₂)) hm
    rw [List.getLast?_append_of_ne_nil _ hm, List.head?_append_of_ne_nil _ hm, update_of_ne hn,
      update_of_ne hp]
    exact hold

end Links

end Xv6.Lib
