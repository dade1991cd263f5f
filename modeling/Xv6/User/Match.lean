import Xv6.User.Grep

/-!
# The language of a pattern

`match` of `grep.c` decides whether a text has a part in the language of a pattern.
-/

namespace Xv6.Grep

open scoped Computability

/-- The texts of one character that `c` stands for: any if it is a dot. -/
def single (c : UInt8) : Language UInt8 := {s | ∃ x, s = [x] ∧ (c = 46 ∨ c = x)}

/-- The language of a pattern: a star belongs to the character before it, and a dollar at the end to no text. -/
def language : List UInt8 → Language UInt8
  | [] => 1
  | c :: re =>
    if re.head? = some 42 then (single c)∗ * language re.tail
    else if c = 36 ∧ re = [] then 1
    else single c * language re
termination_by re => re.length
decreasing_by
  · simp only [List.length_tail, List.length_cons]
    omega
  · simp

/-- A text begins with one of the language, and goes no further if the pattern ends with a dollar. -/
def Begins (re text : List UInt8) : Prop :=
  ∃ s after, text = s ++ after ∧ s ∈ language re ∧ (re.getLast? = some 36 → after = [])

variable {re text : List UInt8} {c : UInt8}

theorem getLast?_cons (h : c ≠ 36 ∨ re ≠ []) : (c :: re).getLast? = some 36 ↔ re.getLast? = some 36 := by
  cases re with
  | nil => simpa using h
  | cons d re => simp [List.getLast?_cons_cons]

theorem mem_star {s : List UInt8} : s ∈ (single c)∗ ↔ ∀ x ∈ s, c = 46 ∨ c = x := by
  constructor
  · rintro ⟨parts, rfl, hparts⟩ x hx
    obtain ⟨part, hpart, hx⟩ := List.mem_flatten.mp hx
    obtain ⟨y, rfl, hy⟩ := hparts part hpart
    rwa [List.mem_singleton.mp hx]
  · intro hs
    refine ⟨s.map fun x => [x], by rw [← List.flatMap_def, List.flatMap_singleton'], fun part hpart => ?_⟩
    obtain ⟨x, hx, rfl⟩ := List.mem_map.mp hpart
    exact ⟨x, rfl, hs x hx⟩

/-- `matchstar`, if `matchhere` decides what comes after the star. -/
theorem matchstar_iff (hre : ∀ text, matchhere re text = true ↔ Begins re text) : matchstar c re text = true ↔
    ∃ s rest, text = s ++ rest ∧ s ∈ (single c)∗ ∧ Begins re rest := by
  induction text with
  | nil =>
    rw [matchstar, Bool.or_false, hre]
    constructor
    · exact fun h => ⟨[], [], rfl, Language.nil_mem_kstar _, h⟩
    · rintro ⟨s, rest, heq, -, h⟩
      rwa [(List.append_eq_nil_iff.mp heq.symm).2] at h
  | cons t text ih =>
    rw [matchstar, Bool.or_eq_true, Bool.and_eq_true, hre, ih]
    constructor
    · rintro (h | ⟨ht, s, rest, rfl, hs, h⟩)
      · exact ⟨[], _, rfl, Language.nil_mem_kstar _, h⟩
      · refine ⟨t :: s, rest, rfl, mem_star.mpr fun x hx => ?_, h⟩
        rcases List.mem_cons.mp hx with rfl | hx
        · exact (by simpa using ht : x = c ∨ c = 46).symm.imp_right Eq.symm
        · exact mem_star.mp hs x hx
    · rintro ⟨s, rest, heq, hs, h⟩
      cases s with
      | nil => exact .inl (by rwa [heq])
      | cons x s =>
        obtain ⟨rfl, rfl⟩ := List.cons.inj heq
        refine .inr ⟨?_, s, rest, rfl, mem_star.mpr fun y hy => mem_star.mp hs y (List.mem_cons_of_mem _ hy), h⟩
        simpa using (mem_star.mp hs t List.mem_cons_self).symm.imp_left Eq.symm

/-- `matchhere` decides whether a text begins with one of the language. -/
theorem matchhere_iff (re text : List UInt8) : matchhere re text = true ↔ Begins re text := by
  induction hn : re.length using Nat.strongRecOn generalizing re text with
  | _ n ih =>
    subst hn
    cases re with
    | nil =>
      rw [matchhere]
      exact iff_of_true rfl ⟨[], text, rfl, by rw [language]; exact Language.nil_mem_one, by simp⟩
    | cons c re =>
      rw [matchhere.eq_def]
      dsimp only
      by_cases hstar : re.head? = some 42
      · obtain ⟨re, rfl⟩ := List.head?_eq_some_iff.mp hstar
        have hlast : (c :: 42 :: re).getLast? = some 36 ↔ re.getLast? = some 36 := by
          rw [List.getLast?_cons_cons, getLast?_cons (.inl (by decide))]
        have hless : re.length < (c :: 42 :: re).length := by
          rw [List.length_cons, List.length_cons]
          omega
        rw [if_pos hstar, List.tail_cons, matchstar_iff fun text => ih re.length hless re text rfl]
        simp only [Begins, language, if_pos hstar, List.tail_cons, hlast, Language.mem_mul]
        constructor
        · rintro ⟨s, rest, rfl, hs, s', after, rfl, hs', hafter⟩
          exact ⟨s ++ s', after, (List.append_assoc ..).symm, ⟨s, hs, s', hs', rfl⟩, hafter⟩
        · rintro ⟨w, after, rfl, ⟨s, hs, s', hs', rfl⟩, hafter⟩
          exact ⟨s, s' ++ after, List.append_assoc .., hs, s', after, rfl, hs', hafter⟩
      by_cases hend : c = 36 ∧ re = []
      · obtain ⟨rfl, rfl⟩ := hend
        simp only [Begins, language, if_neg hstar]
        simp
      simp only [Begins, language, if_neg hstar, if_neg hend, getLast?_cons (not_and_or.mp hend), Language.mem_mul]
      cases text with
      | nil =>
        refine iff_of_false Bool.false_ne_true ?_
        rintro ⟨s, after, heq, ⟨a, ⟨x, rfl, -⟩, b, -, rfl⟩, -⟩
        cases heq
      | cons t text =>
        rw [Bool.and_eq_true, ih re.length (by simp) re text rfl]
        constructor
        · rintro ⟨ht, s, after, rfl, hs, hafter⟩
          exact ⟨t :: s, after, rfl, ⟨[t], ⟨t, rfl, by simpa using ht⟩, s, hs, rfl⟩, hafter⟩
        · rintro ⟨w, after, heq, ⟨a, ⟨x, rfl, hx⟩, s, hs, rfl⟩, hafter⟩
          obtain ⟨rfl, rfl⟩ := List.cons.inj heq
          exact ⟨by simpa using hx, s, after, rfl, hs, hafter⟩

theorem matchLoop_iff : matchLoop re text = true ↔ ∃ before rest, text = before ++ rest ∧ Begins re rest := by
  induction text with
  | nil =>
    rw [matchLoop, matchhere_iff]
    constructor
    · exact fun h => ⟨[], [], rfl, h⟩
    · rintro ⟨before, rest, heq, h⟩
      rwa [(List.append_eq_nil_iff.mp heq.symm).2] at h
  | cons t text ih =>
    rw [matchLoop, Bool.or_eq_true, matchhere_iff, ih]
    constructor
    · rintro (h | ⟨before, rest, rfl, h⟩)
      · exact ⟨[], _, rfl, h⟩
      · exact ⟨t :: before, rest, rfl, h⟩
    · rintro ⟨before, rest, heq, h⟩
      cases before with
      | nil => exact .inl (by rwa [heq])
      | cons x before => exact .inr ⟨before, rest, (List.cons.inj heq).2, h⟩

/-- `match` decides whether a part of the text is in the language of the pattern: its beginning after a caret, and its
end before a dollar. As functions on all pairs of strings, `match`, `matchhere` and `matchstar` return. -/
theorem match_iff (re text : List UInt8) : match' re text = true ↔ ∃ before s after, text = before ++ (s ++ after) ∧
    s ∈ language (if re.head? = some 94 then re.tail else re) ∧ (re.head? = some 94 → before = []) ∧
      (re.getLast? = some 36 → after = []) := by
  unfold match'
  by_cases hcaret : re.head? = some 94
  · obtain ⟨re, rfl⟩ := List.head?_eq_some_iff.mp hcaret
    rw [if_pos hcaret, if_pos hcaret, matchhere_iff, List.tail_cons, getLast?_cons (.inl (by decide))]
    constructor
    · rintro ⟨s, after, htext, hs, hafter⟩
      exact ⟨[], s, after, htext, hs, fun _ => rfl, hafter⟩
    · rintro ⟨before, s, after, htext, hs, hbefore, hafter⟩
      rw [hbefore hcaret] at htext
      exact ⟨s, after, htext, hs, hafter⟩
  · rw [if_neg hcaret, if_neg hcaret, matchLoop_iff]
    constructor
    · rintro ⟨before, rest, rfl, s, after, rfl, hs, hafter⟩
      exact ⟨before, s, after, rfl, hs, fun h => absurd h hcaret, hafter⟩
    · rintro ⟨before, s, after, rfl, hs, -, hafter⟩
      exact ⟨before, s ++ after, rfl, s, after, rfl, hs, hafter⟩

end Xv6.Grep
