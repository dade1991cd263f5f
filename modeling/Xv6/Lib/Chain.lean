import Mathlib

/-!
# Lists threaded through pointers

A list whose links are fields of its elements: `next b` is the element after `b`, and the first one is stored
elsewhere. An element is appended by a walk to the last link.
-/

namespace Xv6.Lib

variable {B : Type*}

/-- From the pointer `head` on, the links lead through exactly these elements. -/
def Chain (next : B → Option B) : Option B → List B → Prop
  | head, [] => head = none
  | head, b :: rest => head = some b ∧ Chain next (next b) rest

/-- Walk from `link`, which holds `head`, to the last link. A link is the field of an element, or the first pointer. -/
def lastLink (next : B → Option B) : ℕ → Option B → Option B → Option (Option B)
  | 0, _, _ => none
  | _ + 1, link, none => some link
  | fuel + 1, _, some b => lastLink next fuel (some b) (next b)

variable {next : B → Option B} {head : Option B} {l : List B}

/-- The walk ends at the last element, or at the first pointer of an empty list. -/
theorem lastLink_of_chain {link : Option B} {fuel : ℕ} (h : Chain next head l) (hfuel : l.length < fuel) :
    lastLink next fuel link head = some (l.getLast?.or link) := by
  induction l generalizing head link fuel with
  | nil =>
    obtain ⟨fuel, rfl⟩ := Nat.exists_eq_add_one.mpr hfuel
    subst h
    rfl
  | cons b rest ih =>
    obtain ⟨fuel, rfl⟩ := Nat.exists_eq_add_one.mpr (Nat.zero_lt_of_lt hfuel)
    obtain ⟨rfl, hrest⟩ := h
    rw [lastLink, ih hrest (Nat.lt_of_succ_lt_succ hfuel)]
    cases rest with
    | nil => rfl
    | cons c rest => simp [List.getLast?_cons]

variable [DecidableEq B]

/-- Links of other elements do not matter. -/
theorem Chain.update (h : Chain next head l) {b : B} (hb : b ∉ l) (x : Option B) :
    Chain (Function.update next b x) head l := by
  induction l generalizing head with
  | nil => exact h
  | cons c rest ih =>
    obtain ⟨rfl, hrest⟩ := h
    obtain ⟨hne, hmem⟩ : b ≠ c ∧ b ∉ rest := by simpa using hb
    refine ⟨rfl, ?_⟩
    rw [Function.update_of_ne hne.symm]
    exact ih hrest hmem

/-- Store a pointer in a link: the new first pointer, and the new links. -/
def setLink (next : B → Option B) (head : Option B) (link : Option B) (b : B) : Option B × (B → Option B) :=
  match link with
  | none => (some b, next)
  | some c => (head, Function.update next c (some b))

/-- An element stored in the last link is appended. -/
theorem Chain.append (h : Chain next head l) (hnodup : l.Nodup) {b : B} (hb : b ∉ l) (hlast : next b = none) :
    Chain (setLink next head l.getLast? b).2 (setLink next head l.getLast? b).1 (l ++ [b]) := by
  induction l generalizing head with
  | nil => exact ⟨rfl, hlast⟩
  | cons c rest ih =>
    obtain ⟨rfl, hrest⟩ := h
    obtain ⟨hne, hmem⟩ : b ≠ c ∧ b ∉ rest := by simpa using hb
    obtain ⟨hc, hnodup⟩ := List.nodup_cons.mp hnodup
    cases rest with
    | nil =>
      simp [setLink, Chain, Function.update_of_ne hne, hlast]
    | cons d rest =>
      have hlink : ((c :: d :: rest).getLast?) = (d :: rest).getLast? := by simp [List.getLast?_cons]
      rw [hlink]
      have hih := ih hrest hnodup hmem
      cases hget : (d :: rest).getLast? with
      | none => simp at hget
      | some e =>
        rw [hget] at hih
        refine ⟨rfl, ?_⟩
        have hce : c ≠ e := by
          rintro rfl
          exact hc (List.mem_of_getLast? hget)
        simpa [setLink, Function.update_of_ne hce] using hih

/-- The first pointer after an append. -/
theorem setLink_head (h : Chain next head l) (b : B) : (setLink next head l.getLast? b).1 = (l ++ [b]).head? := by
  cases l with
  | nil => rfl
  | cons c rest =>
    obtain ⟨rfl, -⟩ := h
    cases hget : (c :: rest).getLast? with
    | none => simp at hget
    | some d => rfl

end Xv6.Lib
