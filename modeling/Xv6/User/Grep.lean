import Mathlib

/-!
# Lines in pieces

`grep` reads its input in pieces, as a pipe or the console has them, writes the lines that match, and keeps the
beginning of a line for the next piece. A piece without the end of a line it throws away instead, with what it
kept before: the line that goes on in the next piece is then taken for the rest of it.
-/

namespace Xv6.Grep

open List (length_cons mem_cons nil_append cons_append length_append flatMap_cons append_assoc not_mem_nil mem_append)

abbrev NEWLINE : UInt8 := 10

/-- Bytes of the buffer. -/
abbrev SIZE : ℕ := 1024

section Model

/-- The place of a byte in a string, which ends with the list or with a zero. -/
def strchr (c : UInt8) : List UInt8 → Option ℕ
  | [] => none
  | s :: rest => if s = 0 then none else if s = c then some 0 else (strchr c rest).map (· + 1)

mutual

/-- Search for `re` at the beginning of a text. -/
def matchhere : List UInt8 → List UInt8 → Bool
  | [], _ => true
  | c :: re, text =>
    if re.head? = some 42 then matchstar c re.tail text
    else if c = 36 ∧ re = [] then text.isEmpty
    else
      match text with
      | [] => false
      | t :: text => (c == 46 || c == t) && matchhere re text
termination_by re text => (re.length, text.length, 0)
decreasing_by
  · exact .left _ _ (by simp only [List.length_tail, length_cons]; omega)
  · exact .left _ _ (by simp)

/-- Search for `c*` and then `re` at the beginning of a text. -/
def matchstar (c : UInt8) (re text : List UInt8) : Bool :=
  matchhere re text ||
    match text with
    | [] => false
    | t :: text => (t == c || c == 46) && matchstar c re text
termination_by (re.length, text.length, 1)
decreasing_by
  · exact .right _ (.right _ Nat.one_pos)
  · exact .right _ (.left _ _ (by simp))

end

/-- The loop of `match`, which looks at the empty string too. -/
def matchLoop (re : List UInt8) : List UInt8 → Bool
  | [] => matchhere re []
  | t :: text => matchhere re (t :: text) || matchLoop re text

/-- `match` of `grep.c`. -/
def match' (re text : List UInt8) : Bool := if re.head? = some 94 then matchhere re.tail text else matchLoop re text

theorem strchr_lt {c : UInt8} {text : List UInt8} {k : ℕ} (h : strchr c text = some k) : k < text.length := by
  induction text generalizing k with
  | nil => cases h
  | cons s rest ih =>
    rw [strchr] at h
    split at h
    · cases h
    split at h
    · cases h
      exact Nat.succ_pos _
    · obtain ⟨j, hj, rfl⟩ := Option.map_eq_some_iff.mp h
      exact Nat.succ_lt_succ (ih hj)

/-- The loop over the lines in the buffer, from place `p` on: where it ends, and what has been written. -/
def linesLoop (pattern : List UInt8) (p : ℕ) (text out : List UInt8) : ℕ × List UInt8 :=
  match _h : strchr NEWLINE text with
  | none => (p, out)
  | some k => linesLoop pattern (p + k + 1) (text.drop (k + 1))
      (if match' pattern (text.take k) then out ++ text.take (k + 1) else out)
termination_by text.length
decreasing_by
  have hlt := strchr_lt _h
  rw [List.length_drop]
  omega

/-- What the buffer holds before the next call of `read`, and what has been written. -/
structure State where
  held : List UInt8
  out : List UInt8
  deriving DecidableEq, Repr

/-- One turn of the loop of `grep`, in which `read` returns the bytes `got`. -/
def turn (pattern : List UInt8) (s : State) (got : List UInt8) : State :=
  let text := s.held ++ got
  let (p, out) := linesLoop pattern 0 text s.out
  let m := if p = 0 then 0 else text.length
  if 0 < m then ⟨(text.drop p).take (m - p), out⟩ else ⟨[], out⟩

/-- `grep` on an input that arrives in the pieces `reads`. -/
def grep (pattern : List UInt8) (reads : List (List UInt8)) : State := reads.foldl (turn pattern) ⟨[], []⟩

/-- What `read` can return: at least one byte, and not more than it was asked for. -/
def Answers (reads : List (List UInt8)) : Prop :=
  ∀ pattern before got later, reads = before ++ got :: later →
    got ≠ [] ∧ got.length ≤ SIZE - (grep pattern before).held.length - 1

end Model

section Lines

/-- The lines of a text that end, and the rest. -/
def split : List UInt8 → List (List UInt8) × List UInt8
  | [] => ([], [])
  | c :: text =>
    if c = NEWLINE then ([] :: (split text).1, (split text).2)
    else
      match (split text).1 with
      | [] => ([], c :: (split text).2)
      | line :: lines => ((c :: line) :: lines, (split text).2)

/-- The lines that match, as they are written. -/
def printed (pattern : List UInt8) (lines : List (List UInt8)) : List UInt8 :=
  (lines.filter (match' pattern)).flatMap (· ++ [NEWLINE])

variable {pattern text rest : List UInt8}

theorem split_of_notMem (h : NEWLINE ∉ text) : split text = ([], text) := by
  induction text with
  | nil => rfl
  | cons c text ih =>
    obtain ⟨hc, htext⟩ := not_or.mp (mt mem_cons.mpr h)
    rw [split, if_neg (Ne.symm hc), ih htext]

variable {line : List UInt8}

theorem split_line (h : NEWLINE ∉ line) (rest : List UInt8) :
    split (line ++ NEWLINE :: rest) = (line :: (split rest).1, (split rest).2) := by
  induction line with
  | nil => rw [nil_append, split, if_pos rfl]
  | cons c line ih =>
    obtain ⟨hc, hline⟩ := not_or.mp (mt mem_cons.mpr h)
    rw [cons_append, split, if_neg (Ne.symm hc), ih hline]

/-- A text is without the end of a line, or it is a line and a text. -/
@[elab_as_elim]
theorem line_induction {motive : List UInt8 → Prop} (text : List UInt8) (unended : ∀ text, NEWLINE ∉ text → motive text)
    (line : ∀ line rest, NEWLINE ∉ line → motive rest → motive (line ++ NEWLINE :: rest)) : motive text := by
  induction hn : text.length using Nat.strongRecOn generalizing text with
  | _ n ih =>
    by_cases h : NEWLINE ∈ text
    · obtain ⟨first, rest, rfl, hfirst⟩ := List.eq_append_cons_of_mem h
      exact line first rest hfirst (ih rest.length (by rw [← hn, length_append, length_cons]; omega) rest rfl)
    · exact unended text h

theorem split_join (text : List UInt8) : (split text).1.flatMap (· ++ [NEWLINE]) ++ (split text).2 = text := by
  induction text using line_induction with
  | unended text hnone => rw [split_of_notMem hnone, List.flatMap_nil, nil_append]
  | line line rest hline ih =>
    rw [split_line hline, flatMap_cons, append_assoc, append_assoc, ih]
    rfl

/-- The rest of a text goes on with what comes after it. -/
theorem split_append (text more : List UInt8) :
    split (text ++ more) =
      ((split text).1 ++ (split ((split text).2 ++ more)).1, (split ((split text).2 ++ more)).2) := by
  induction text using line_induction with
  | unended text hnone => rw [split_of_notMem hnone, nil_append]
  | line line rest hline ih =>
    rw [split_line hline, append_assoc, cons_append, split_line hline, ih, cons_append]

theorem newline_notMem_rest (text : List UInt8) : NEWLINE ∉ (split text).2 := by
  induction text using line_induction with
  | unended text hnone => rwa [split_of_notMem hnone]
  | line line rest hline ih => rwa [split_line hline]

theorem length_split (text : List UInt8) :
    ((split text).1.flatMap (· ++ [NEWLINE])).length + (split text).2.length = text.length := by
  rw [← length_append, split_join]

theorem strchr_of_notMem (hnul : 0 ∉ text) (h : NEWLINE ∉ text) : strchr NEWLINE text = none := by
  induction text with
  | nil => rfl
  | cons c text ih =>
    obtain ⟨hc, htext⟩ := not_or.mp (mt mem_cons.mpr h)
    obtain ⟨hz, hnul⟩ := not_or.mp (mt mem_cons.mpr hnul)
    rw [strchr, if_neg (Ne.symm hz), if_neg (Ne.symm hc), ih hnul htext]
    rfl

theorem strchr_line (hnul : 0 ∉ line) (h : NEWLINE ∉ line) (rest : List UInt8) :
    strchr NEWLINE (line ++ NEWLINE :: rest) = some line.length := by
  induction line with
  | nil => rfl
  | cons c line ih =>
    obtain ⟨hc, hline⟩ := not_or.mp (mt mem_cons.mpr h)
    obtain ⟨hz, hnul⟩ := not_or.mp (mt mem_cons.mpr hnul)
    rw [cons_append, strchr, if_neg (Ne.symm hz), if_neg (Ne.symm hc), ih hnul hline]
    rfl

theorem printed_cons (line : List UInt8) (lines : List (List UInt8)) :
    printed pattern (line :: lines) = (if match' pattern line then line ++ [NEWLINE] else []) ++
      printed pattern lines := by
  rw [printed, List.filter_cons]
  split <;> rfl

/-- The loop writes the lines that match, and ends at the rest. -/
theorem linesLoop_eq (hnul : 0 ∉ text) (p : ℕ) (out : List UInt8) : linesLoop pattern p text out =
      (p + ((split text).1.flatMap (· ++ [NEWLINE])).length, out ++ printed pattern (split text).1) := by
  induction text using line_induction generalizing p out with
  | unended text hnone =>
    rw [linesLoop, split_of_notMem hnone]
    split
    · simp [printed]
    · next k hk =>
      rw [strchr_of_notMem hnul hnone] at hk
      cases hk
  | line line rest hline ih =>
    obtain ⟨hnul₁, -, hnul₂⟩ : 0 ∉ line ∧ ¬0 = NEWLINE ∧ 0 ∉ rest := by simpa using hnul
    have hfound := strchr_line hnul₁ hline rest
    rw [linesLoop]
    split
    · next hk =>
      rw [hfound] at hk
      cases hk
    next k hk =>
    rw [hfound] at hk
    cases hk
    have hsplit : line ++ NEWLINE :: rest = (line ++ [NEWLINE]) ++ rest := by simp
    have hdrop : (line ++ NEWLINE :: rest).drop (line.length + 1) = rest := by
      rw [hsplit]
      exact List.drop_left' (by simp)
    have htake : (line ++ NEWLINE :: rest).take (line.length + 1) = line ++ [NEWLINE] := by
      rw [hsplit]
      exact List.take_left' (by simp)
    rw [hdrop, htake, List.take_left, split_line hline, printed_cons, ih hnul₂]
    refine Prod.ext ?_ ?_
    · simp only [flatMap_cons, length_append, List.length_singleton]
      omega
    · split <;> simp

/-- A turn keeps the rest of the buffer if it has a line, and nothing if it has none. -/
theorem turn_eq {s : State} {got : List UInt8} (hnul : 0 ∉ s.held ++ got) :
    turn pattern s got = ⟨if NEWLINE ∈ s.held ++ got then (split (s.held ++ got)).2 else [],
      s.out ++ printed pattern (split (s.held ++ got)).1⟩ := by
  unfold turn
  dsimp only
  rw [linesLoop_eq hnul, Nat.zero_add]
  generalize s.held ++ got = text
  have hlength := length_split text
  by_cases h : NEWLINE ∈ text
  · obtain ⟨line, rest, rfl, hline⟩ := List.eq_append_cons_of_mem h
    have hpos : ((split (line ++ NEWLINE :: rest)).1.flatMap (· ++ [NEWLINE])).length ≠ 0 := by
      rw [split_line hline]
      simp
    have hdrop := @List.drop_left _ ((split (line ++ NEWLINE :: rest)).1.flatMap (· ++ [NEWLINE]))
      (split (line ++ NEWLINE :: rest)).2
    rw [split_join] at hdrop
    rw [if_pos h, if_neg hpos, if_pos (by omega), hdrop, List.take_of_length_le (by omega)]
  · rw [if_neg h, split_of_notMem h]
    rfl

end Lines

section Results

variable {pattern : List UInt8} {reads : List (List UInt8)}

theorem grep_append (reads : List (List UInt8)) (got : List UInt8) :
    grep pattern (reads ++ [got]) = turn pattern (grep pattern reads) got := by
  rw [grep, List.foldl_append]
  rfl

theorem flatten_append_singleton (reads : List (List UInt8)) (got : List UInt8) :
    (reads ++ [got]).flatten = reads.flatten ++ got := by simp

section

variable (hnul : 0 ∉ reads.flatten)

include hnul

/-- What is kept is the end of what has been read, and of one line. -/
theorem grep_held : (grep pattern reads).held <:+ reads.flatten ∧ NEWLINE ∉ (grep pattern reads).held := by
  induction reads using List.reverseRecOn with
  | nil => exact ⟨List.nil_suffix, not_mem_nil⟩
  | append_singleton reads got ih =>
    rw [flatten_append_singleton] at hnul ⊢
    obtain ⟨before, hbefore⟩ := (ih fun h => hnul (List.mem_append_left got h)).1
    have htext : (grep pattern reads).held ++ got <:+ reads.flatten ++ got :=
      ⟨before, by rw [← append_assoc, hbefore]⟩
    rw [grep_append, turn_eq fun h => hnul (htext.subset h)]
    split
    · have hrest : (split ((grep pattern reads).held ++ got)).2 <:+ (grep pattern reads).held ++ got :=
        ⟨_, split_join _⟩
      exact ⟨hrest.trans htext, newline_notMem_rest _⟩
    · exact ⟨List.nil_suffix, not_mem_nil⟩

theorem grep_turn {got : List UInt8} (hgot : 0 ∉ got) : grep pattern (reads ++ [got]) =
      ⟨if NEWLINE ∈ got then (split ((grep pattern reads).held ++ got)).2 else [],
        (grep pattern reads).out ++ printed pattern (split ((grep pattern reads).held ++ got)).1⟩ := by
  obtain ⟨hsuffix, hline⟩ := @grep_held pattern reads hnul
  rw [grep_append, turn_eq]
  · simp only [mem_append, or_iff_right hline]
  · rw [mem_append]
    exact not_or.mpr ⟨fun h => hnul (hsuffix.subset h), hgot⟩

/-- Up to the first piece without the end of a line everything is as it should be, and if none has one later, it
stays so. -/
theorem grep_of_pairwise (hreads : reads.Pairwise fun got later => NEWLINE ∈ later → NEWLINE ∈ got) :
    (grep pattern reads).out = printed pattern (split reads.flatten).1 ∧
      ((∀ got ∈ reads, NEWLINE ∈ got) → (grep pattern reads).held = (split reads.flatten).2) := by
  induction reads using List.reverseRecOn with
  | nil => exact ⟨rfl, fun _ => rfl⟩
  | append_singleton reads got ih =>
    obtain ⟨hpairs, -, hlast⟩ := List.pairwise_append.mp hreads
    rw [flatten_append_singleton] at hnul ⊢
    obtain ⟨hnul₁, hnul₂⟩ := not_or.mp (mt mem_append.mpr hnul)
    obtain ⟨hout, hheld⟩ := ih hnul₁ hpairs
    rw [grep_turn hnul₁ hnul₂, split_append reads.flatten got]
    by_cases h : NEWLINE ∈ got
    · have hall : ∀ piece ∈ reads, NEWLINE ∈ piece := fun piece hpiece =>
        hlast piece hpiece got (List.mem_singleton_self got) h
      rw [if_pos h, hheld hall, hout, printed, printed, printed, List.filter_append, List.flatMap_append]
      exact ⟨rfl, fun _ => rfl⟩
    · have hlines : ∀ {start : List UInt8}, NEWLINE ∉ start → (split (start ++ got)).1 = [] := fun hstart => by
        rw [split_of_notMem (by simp [hstart, h])]
      rw [hlines (grep_held hnul₁).2, hlines (newline_notMem_rest _), hout]
      exact ⟨by simp [printed], fun hall => absurd (hall got (by simp)) h⟩

omit hnul in
/-- The empty pattern matches every line. -/
theorem printed_nil (lines : List (List UInt8)) : printed [] lines = lines.flatMap (· ++ [NEWLINE]) := by
  have hall : ∀ line : List UInt8, match' [] line = true := fun line => by
    cases line <;> simp [match', matchLoop, matchhere]
  rw [printed, List.filter_eq_self.mpr fun line _ => hall line]

/-- With the empty pattern, what is missing of the lines that have ended and of the one that has not. -/
theorem grep_lost (hpos : ∀ got ∈ reads, got ≠ []) :
    (grep [] reads).out.length + (split reads.flatten).2.length ≤ reads.flatten.length ∧
    (grep [] reads).held.length ≤ (split reads.flatten).2.length ∧
    (¬(reads.Pairwise fun got later => NEWLINE ∈ later → NEWLINE ∈ got) →
      (grep [] reads).out.length + (split reads.flatten).2.length < reads.flatten.length) ∧
    ((∃ got ∈ reads, NEWLINE ∉ got) →
      (grep [] reads).out.length + (split reads.flatten).2.length < reads.flatten.length ∨
        (grep [] reads).held.length < (split reads.flatten).2.length) := by
  induction reads using List.reverseRecOn with
  | nil => exact ⟨Nat.le_refl _, Nat.le_refl _, fun h => absurd .nil h, fun ⟨_, h, _⟩ => absurd h not_mem_nil⟩
  | append_singleton reads got ih =>
    rw [flatten_append_singleton] at hnul ⊢
    obtain ⟨hnul₁, hnul₂⟩ := not_or.mp (mt mem_append.mpr hnul)
    obtain ⟨hended, hrest, hpairs, hsome⟩ := ih hnul₁ fun piece h => hpos piece (List.mem_append_left _ h)
    have hgot : 0 < got.length := List.length_pos_iff.mpr (hpos got (by simp))
    rw [grep_turn hnul₁ hnul₂, split_append reads.flatten got, length_append, List.pairwise_append]
    by_cases h : NEWLINE ∈ got
    · -- the line that ends here has lost what was thrown away of it
      obtain ⟨line, rest, rfl, hline⟩ := List.eq_append_cons_of_mem h
      have hsplit : ∀ {start : List UInt8}, NEWLINE ∉ start → split (start ++ (line ++ NEWLINE :: rest)) =
          ((start ++ line) :: (split rest).1, (split rest).2) := fun hstart => by
        rw [← append_assoc, split_line (by simp [hstart, hline])]
      have hlength := length_split rest
      rw [if_pos h, hsplit (grep_held hnul₁).2, hsplit (newline_notMem_rest _), printed_nil]
      simp only [flatMap_cons, length_append, length_cons, List.length_nil]
      refine ⟨by omega, Nat.le_refl _, fun hnot => ?_, fun ⟨piece, hpiece, hno⟩ => .inl ?_⟩
      · by_cases hold : reads.Pairwise fun got later => NEWLINE ∈ later → NEWLINE ∈ got
        · have hbad : ∃ piece ∈ reads, NEWLINE ∉ piece := by
            by_contra hgood
            push Not at hgood
            exact hnot ⟨hold, List.pairwise_singleton _ _, fun a ha _ _ _ => hgood a ha⟩
          have := hsome hbad
          omega
        · have := hpairs hold
          omega
      · rcases mem_append.mp hpiece with hpiece | hpiece
        · have := hsome ⟨piece, hpiece, hno⟩
          omega
        · rw [List.mem_singleton.mp hpiece] at hno
          exact absurd h hno
    · have hsplit : ∀ {start : List UInt8}, NEWLINE ∉ start → split (start ++ got) = ([], start ++ got) := fun hstart =>
        split_of_notMem (by simp [hstart, h])
      rw [if_neg h, hsplit (grep_held hnul₁).2, hsplit (newline_notMem_rest _), printed_nil]
      simp only [List.flatMap_nil, length_append, List.length_nil]
      refine ⟨by omega, by omega, fun hnot => ?_, fun _ => .inr (by omega)⟩
      have := hpairs fun hold => hnot ⟨hold, List.pairwise_singleton _ _, fun a _ b hb hin => by
        rw [List.mem_singleton.mp hb] at hin
        exact absurd hin h⟩
      omega

end

/-- For every pattern `grep` writes the lines that match, and can always read on, if and only if no piece without the
end of a line comes before one with an end. -/
theorem grep_exact_iff (hreads : Answers reads) (hnul : 0 ∉ reads.flatten)
    (hlines : ∀ line, line <:+: reads.flatten → NEWLINE ∉ line → line.length ≤ 1022) :
    (∀ pattern, (grep pattern reads).out = printed pattern (split reads.flatten).1 ∧
        0 < SIZE - (grep pattern reads).held.length - 1) ↔
      reads.Pairwise fun got later => NEWLINE ∈ later → NEWLINE ∈ got := by
  constructor
  · intro hall
    by_contra hnot
    have hpos : ∀ got ∈ reads, got ≠ [] := fun got hgot => by
      obtain ⟨before, later, heq⟩ := List.append_of_mem hgot
      exact (hreads [] before got later heq).1
    have hlost := (grep_lost hnul hpos).2.2.1 hnot
    have hlength := length_split reads.flatten
    rw [(hall []).1, printed_nil] at hlost
    omega
  · intro hpairs pattern
    obtain ⟨hsuffix, hline⟩ := @grep_held pattern reads hnul
    have hshort := hlines _ hsuffix.isInfix hline
    exact ⟨(grep_of_pairwise hnul hpairs).1, by simp only [SIZE]; omega⟩

/-- Any pieces of an input that fits into the buffer can be what `read` returns. -/
theorem answers_of_short (hpos : ∀ got ∈ reads, got ≠ []) (hnul : 0 ∉ reads.flatten)
    (hshort : reads.flatten.length < SIZE) :
    Answers reads := by
  rintro pattern before got later rfl
  refine ⟨hpos got (by simp), ?_⟩
  rw [List.flatten_append, List.flatten_cons, length_append, length_append] at hshort
  rw [List.flatten_append] at hnul
  have hle := (@grep_held pattern before fun h => hnul (List.mem_append_left _ h)).1.length_le
  omega

/-- The lines `ab` and `cd` in two pieces, cut after `c`. -/
theorem grep_exact_two_pieces :
    (grep [100] [[97, 98, 10, 99], [100, 10]]).out = printed [100] [[97, 98], [99, 100]] :=
  ((grep_exact_iff (answers_of_short (by simp) (by decide) (by decide)) (by decide)
    fun _ hline _ => Nat.le_trans hline.length_le (by decide)).mpr (by simp) [100]).1

/-- The line `ab` in two pieces: `a` is thrown away, and the line does not match `a`. -/
theorem grep_loses_first_piece :
    (grep [97] [[97], [98, 10]]).out = [] ∧ printed [97] (split [97, 98, 10]).1 = [97, 98, 10] := by
  have hfirst : turn [97] ⟨[], []⟩ [97] = ⟨[], []⟩ := by
    rw [turn_eq (by decide)]
    rfl
  have hsecond : turn [97] ⟨[], []⟩ [98, 10] = ⟨[], []⟩ := by
    rw [turn_eq (by decide)]
    have hsplit : split [98, 10] = ([[98]], []) := by decide
    have hno : match' [97] [98] = false := by simp [match', matchLoop, matchhere]
    simp [hsplit, printed, hno]
  have hsplit : split [97, 98, 10] = ([[97, 98]], []) := by decide
  have hyes : match' [97] [97, 98] = true := by simp [match', matchLoop, matchhere]
  refine ⟨?_, by simp [hsplit, printed, hyes]⟩
  rw [grep, List.foldl_cons, hfirst, List.foldl_cons, hsecond]
  rfl

end Results

end Xv6.Grep
