import Xv6.Shell.Parser

/-!
# Tokens of a command line

The tokens of a line by the rules of `gettoken`: white space separates them, symbols stand for themselves, and a word
is as long as it can be. A parser that takes its tokens from a buffer does the same as one that takes them from the
list, word for word: every token it gets is the next one of the rest of the line.
-/

namespace Xv6.Shell

open Lib

inductive Token
  | bar
  | lparen
  | rparen
  | semi
  | amp
  | lt
  | gt
  | gtgt
  | word (text : List UInt8)
  deriving DecidableEq, Repr

/-- What `gettoken` returns for the token. -/
def Token.code : Token → UInt8
  | .bar => '|'.toUInt8
  | .lparen => '('.toUInt8
  | .rparen => ')'.toUInt8
  | .semi => ';'.toUInt8
  | .amp => '&'.toUInt8
  | .lt => '<'.toUInt8
  | .gt => '>'.toUInt8
  | .gtgt => '+'.toUInt8
  | .word _ => 'a'.toUInt8

/-- The characters of the token. -/
def Token.text : Token → List UInt8
  | .gtgt => ['>'.toUInt8, '>'.toUInt8]
  | .word text => text
  | t => [t.code]

attribute [local simp] Token.text

/-- The tokens of one character that nothing is read after. -/
def symbolToken (c : UInt8) : Option Token :=
  if c = '|'.toUInt8 then some .bar
  else if c = '('.toUInt8 then some .lparen
  else if c = ')'.toUInt8 then some .rparen
  else if c = ';'.toUInt8 then some .semi
  else if c = '&'.toUInt8 then some .amp
  else if c = '<'.toUInt8 then some .lt
  else none

/-- The token that begins with a character, and what is left after it. -/
def firstToken (c : UInt8) (rest : List UInt8) : Token × List UInt8 :=
  match symbolToken c with
  | some t => (t, rest)
  | none =>
    if c = '>'.toUInt8 then
      match rest with
      | d :: rest' => if d = '>'.toUInt8 then (.gtgt, rest') else (.gt, rest)
      | [] => (.gt, [])
    else (.word (c :: rest.takeWhile isWord), rest.dropWhile isWord)

theorem firstToken_length_le (c : UInt8) (rest : List UInt8) : (firstToken c rest).2.length ≤ rest.length := by
  unfold firstToken
  split
  · exact le_rfl
  split
  · split
    · split
      · exact Nat.le_succ _
      · exact le_rfl
    · exact le_rfl
  · exact (List.dropWhile_suffix isWord).length_le

section FirstToken

variable {c d : UInt8} {rest : List UInt8}

theorem firstToken_symbol {t : Token} (h : symbolToken c = some t) : firstToken c rest = (t, rest) := by
  simp only [firstToken, h]

theorem firstToken_gt_end : firstToken '>'.toUInt8 [] = (.gt, []) := rfl

theorem firstToken_gtgt : firstToken '>'.toUInt8 ('>'.toUInt8 :: rest) = (.gtgt, rest) := rfl

theorem firstToken_gt (hd : d ≠ '>'.toUInt8) : firstToken '>'.toUInt8 (d :: rest) = (.gt, d :: rest) := by
  have hnone : symbolToken '>'.toUInt8 = none := rfl
  simp only [firstToken, hnone, if_true, if_neg hd]

theorem firstToken_word (h : symbolToken c = none) (hc : c ≠ '>'.toUInt8) :
    firstToken c rest = (.word (c :: rest.takeWhile isWord), rest.dropWhile isWord) := by
  simp only [firstToken, h, if_neg hc]

end FirstToken

/-- The tokens of a line. -/
def lex (line : List UInt8) : List Token :=
  match _h : line.dropWhile isWhite with
  | [] => []
  | c :: rest => (firstToken c rest).1 :: lex (firstToken c rest).2
termination_by line.length
decreasing_by
  have hfirst := firstToken_length_le c rest
  have hwhite := (List.dropWhile_suffix (l := line) isWhite).length_le
  rw [_h, List.length_cons] at hwhite
  omega

section Lex

variable {line rest : List UInt8} {c : UInt8}

theorem lex_of_nil (h : line.dropWhile isWhite = []) : lex line = [] := by
  rw [lex]
  split
  · rfl
  · next heq =>
    rw [h] at heq
    cases heq

theorem lex_of_cons (h : line.dropWhile isWhite = c :: rest) :
    lex line = (firstToken c rest).1 :: lex (firstToken c rest).2 := by
  rw [lex]
  split
  · next heq =>
    rw [h] at heq
    cases heq
  · next heq =>
    rw [h] at heq
    cases heq
    rfl

theorem lex_dropWhile (line : List UInt8) : lex (line.dropWhile isWhite) = lex line := by
  have hidem : (line.dropWhile isWhite).dropWhile isWhite = line.dropWhile isWhite := List.dropWhile_idempotent ..
  cases h : line.dropWhile isWhite with
  | nil => rw [lex_of_nil h, lex_of_nil rfl]
  | cons c rest =>
    rw [h] at hidem
    rw [lex_of_cons h, lex_of_cons hidem]

end Lex

/-- A list of tokens as a source. -/
def tokens : Source (List Token) (List UInt8) where
  gettoken
    | [] => .ok (0, [], [])
    | t :: ts => .ok (t.code, t.text, ts)
  peek toks
    | [] => .ok (false, [])
    | .word w :: ts => .ok (false, .word w :: ts)
    | t :: ts => .ok (t.text.head?.any toks.contains, t :: ts)

section Simulation

variable {S T V W : Type}

/-- One source gives what the other does, for cursors that are related. -/
structure Source.Simulates (source : Source S W) (target : Source T V) (R : S → T → Prop) (M : W → V → Prop) :
    Prop where
  gettoken : ∀ {s t}, R s t → ∃ code w s' v t', source.gettoken s = .ok (code, w, s') ∧
    target.gettoken t = .ok (code, v, t') ∧ R s' t' ∧ (code = 'a'.toUInt8 → M w v)
  peek : ∀ {s t toks}, R s t → toks ⊆ symbols → ∃ found s' t', source.peek toks s = .ok (found, s') ∧
    target.peek toks t = .ok (found, t') ∧ R s' t'

/-- Trees of one shape, with related words. -/
inductive Cmd.Matches (M : W → V → Prop) : Cmd W → Cmd V → Prop
  | exec {argv : List W} {argv' : List V} (h : List.Forall₂ M argv argv') : Matches M (.exec argv) (.exec argv')
  | redir {cmd : Cmd W} {cmd' : Cmd V} {file : W} {file' : V} {mode fd : ℕ} (h : Matches M cmd cmd')
    (hfile : M file file') :
      Matches M (.redir cmd file mode fd) (.redir cmd' file' mode fd)
  | pipe {left right : Cmd W} {left' right' : Cmd V} (h : Matches M left left') (h' : Matches M right right') :
      Matches M (.pipe left right) (.pipe left' right')
  | list {left right : Cmd W} {left' right' : Cmd V} (h : Matches M left left') (h' : Matches M right right') :
      Matches M (.list left right) (.list left' right')
  | back {cmd : Cmd W} {cmd' : Cmd V} (h : Matches M cmd cmd') : Matches M (.back cmd) (.back cmd')

/-- The same outcome: the same error, or matching trees and related cursors. -/
inductive Same (M : W → V → Prop) (R : S → T → Prop) : Except Stop (Cmd W × S) → Except Stop (Cmd V × T) → Prop
  | error (e : Stop) : Same M R (.error e) (.error e)
  | ok {c : Cmd W} {d : Cmd V} {s : S} {t : T} (hc : c.Matches M d) (hs : R s t) : Same M R (.ok (c, s)) (.ok (d, t))

variable {source : Source S W} {target : Source T V} {R : S → T → Prop} {M : W → V → Prop}

theorem Same.bind {x : Except Stop (Cmd W × S)} {y : Except Stop (Cmd V × T)} {f : Cmd W × S → Except Stop (Cmd W × S)}
    {g : Cmd V × T → Except Stop (Cmd V × T)} (h : Same M R x y)
    (hfg : ∀ c s d t, c.Matches M d → R s t → Same M R (f (c, s)) (g (d, t))) : Same M R (x >>= f) (y >>= g) := by
  cases h with
  | error e => exact .error e
  | ok hc hs => exact hfg _ _ _ _ hc hs

variable {c : Cmd W} {d : Cmd V}

theorem Cmd.Matches.addArg {w : W} {v : V} (h : c.Matches M d) (hw : M w v) :
    (c.addArg w).Matches M (d.addArg v) := by
  induction h with
  | exec hargs => exact .exec (List.rel_append hargs (.cons hw .nil))
  | redir _ hfile ih => exact .redir ih hfile
  | pipe h h' => exact .pipe h h'
  | list h h' => exact .list h h'
  | back h => exact .back h

theorem Cmd.Matches.redircmd {w : W} {v : V} (h : c.Matches M d) (hw : M w v) (tok : UInt8) :
    (redircmd tok w c).Matches M (redircmd tok v d) := by
  unfold Shell.redircmd
  split
  · exact .redir h hw
  split
  · exact .redir h hw
  · split
    · exact .redir h hw
    · exact h

namespace Source.Simulates

variable {c : Cmd W} {d : Cmd V} {s : S} {t : T}

variable (hsim : source.Simulates target R M)

include hsim

theorem parseredirs (fuel : ℕ) (hc : c.Matches M d) (hs : R s t) :
    Same M R (Shell.parseredirs source fuel c s) (Shell.parseredirs target fuel d t) := by
  induction fuel generalizing c d s t with
  | zero => exact .error _
  | succ fuel ih =>
    obtain ⟨more, s₁, t₁, hp, hp', hs₁⟩ := @hsim.peek _ _ ['<'.toUInt8, '>'.toUInt8] hs (by decide)
    rw [Shell.parseredirs, Shell.parseredirs, hp, hp']
    cases more with
    | false => exact .ok hc hs₁
    | true =>
      obtain ⟨tok, w, s₂, v, t₂, hg, hg', hs₂, -⟩ := hsim.gettoken hs₁
      obtain ⟨tok', w', s₃, v', t₃, hg₃, hg₃', hs₃, hw⟩ := hsim.gettoken hs₂
      simp only [if_true, hg, hg', hg₃, hg₃', ok_bind]
      by_cases hword : tok' = 'a'.toUInt8
      · rw [if_neg (not_not_intro hword), if_neg (not_not_intro hword)]
        exact ih (hc.redircmd (hw hword) tok) hs₃
      · rw [if_pos hword, if_pos hword]
        exact .error _

theorem parseargs (fuel : ℕ) {argc : ℕ} (hc : c.Matches M d) (hs : R s t) :
    Same M R (Shell.parseargs source fuel c argc s) (Shell.parseargs target fuel d argc t) := by
  induction fuel generalizing c d argc s t with
  | zero => exact .error _
  | succ fuel ih =>
    obtain ⟨more, s₁, t₁, hp, hp', hs₁⟩ :=
      @hsim.peek _ _ ['|'.toUInt8, ')'.toUInt8, '&'.toUInt8, ';'.toUInt8] hs (by decide)
    rw [Shell.parseargs, Shell.parseargs, hp, hp']
    cases more with
    | true => exact .ok hc hs₁
    | false =>
      obtain ⟨tok, w, s₂, v, t₂, hg, hg', hs₂, hw⟩ := hsim.gettoken hs₁
      simp only [Bool.false_eq_true, if_false, hg, hg', ok_bind]
      by_cases hend : tok = 0
      · rw [if_pos hend, if_pos hend]
        exact .ok hc hs₂
      rw [if_neg hend, if_neg hend]
      by_cases hword : tok = 'a'.toUInt8
      · rw [if_neg (not_not_intro hword), if_neg (not_not_intro hword)]
        by_cases hmany : argc + 1 ≥ MAXARGS
        · rw [if_pos hmany, if_pos hmany]
          exact .error _
        · rw [if_neg hmany, if_neg hmany]
          exact (hsim.parseredirs fuel (hc.addArg (hw hword)) hs₂).bind fun _ _ _ _ hc' hs' => ih hc' hs'
      · rw [if_pos hword, if_pos hword]
        exact .error _

theorem parsebacks (fuel : ℕ) (hc : c.Matches M d) (hs : R s t) :
    Same M R (Shell.parsebacks source fuel c s) (Shell.parsebacks target fuel d t) := by
  induction fuel generalizing c d s t with
  | zero => exact .error _
  | succ fuel ih =>
    obtain ⟨more, s₁, t₁, hp, hp', hs₁⟩ := @hsim.peek _ _ ['&'.toUInt8] hs (by decide)
    rw [Shell.parsebacks, Shell.parsebacks, hp, hp']
    cases more with
    | false => exact .ok hc hs₁
    | true =>
      obtain ⟨tok, w, s₂, v, t₂, hg, hg', hs₂, -⟩ := hsim.gettoken hs₁
      simp only [if_true, hg, hg', ok_bind]
      exact ih (.back hc) hs₂

/-- A separator and what comes after it. -/
theorem continue_with {toks : List UInt8} (htoks : toks ⊆ symbols) {join : Cmd W → Cmd W → Cmd W}
    {join' : Cmd V → Cmd V → Cmd V}
    (hjoin : ∀ {c c' : Cmd W} {d d' : Cmd V}, c.Matches M d → c'.Matches M d' → (join c c').Matches M (join' d d'))
    {f : S → Except Stop (Cmd W × S)} {g : T → Except Stop (Cmd V × T)} (hfg : ∀ {s t}, R s t → Same M R (f s) (g t))
    (hc : c.Matches M d) (hs : R s t) : Same M R
      (do
        let (more, s) ← source.peek toks s
        if more then do
          let (_, _, s) ← source.gettoken s
          let (right, s) ← f s
          .ok (join c right, s)
        else .ok (c, s))
      (do
        let (more, t) ← target.peek toks t
        if more then do
          let (_, _, t) ← target.gettoken t
          let (right, t) ← g t
          .ok (join' d right, t)
        else .ok (d, t)) := by
  obtain ⟨more, s₁, t₁, hp, hp', hs₁⟩ := hsim.peek hs htoks
  simp only [hp, hp', ok_bind]
  cases more with
  | false => exact .ok hc hs₁
  | true =>
    obtain ⟨tok, w, s₂, v, t₂, hg, hg', hs₂, -⟩ := hsim.gettoken hs₁
    simp only [if_true, hg, hg', ok_bind]
    exact (hfg hs₂).bind fun _ _ _ _ hc' hs' => .ok (hjoin hc hc') hs'

/-- Both parsers have the same outcome. -/
theorem parse (fuel : ℕ) :
    (∀ {s t}, R s t → Same M R (Shell.parseline source fuel s) (Shell.parseline target fuel t)) ∧
    (∀ {s t}, R s t → Same M R (Shell.parsepipe source fuel s) (Shell.parsepipe target fuel t)) ∧
    (∀ {s t}, R s t → Same M R (Shell.parseblock source fuel s) (Shell.parseblock target fuel t)) ∧
    ∀ {s t}, R s t → Same M R (Shell.parseexec source fuel s) (Shell.parseexec target fuel t) := by
  induction fuel with
  | zero => exact ⟨fun _ => .error _, fun _ => .error _, fun _ => .error _, fun _ => .error _⟩
  | succ fuel ih =>
    obtain ⟨hline, hpipe, hblock, hexec⟩ := ih
    refine ⟨fun hs => ?_, fun hs => ?_, fun {s t} hs => ?_, fun {s t} hs => ?_⟩
    · refine (hpipe hs).bind fun c s d t hc hs => (hsim.parsebacks fuel hc hs).bind fun c s d t hc hs => ?_
      exact hsim.continue_with (by decide) .list hline hc hs
    · refine (hexec hs).bind fun c s d t hc hs => ?_
      exact hsim.continue_with (by decide) .pipe hpipe hc hs
    · rw [Shell.parseblock, Shell.parseblock]
      obtain ⟨opened, s₁, t₁, hp, hp', hs₁⟩ := @hsim.peek _ _ ['('.toUInt8] hs (by decide)
      simp only [hp, hp', ok_bind]
      cases opened with
      | false => exact .error _
      | true =>
        obtain ⟨tok, w, s₂, v, t₂, hg, hg', hs₂, -⟩ := hsim.gettoken hs₁
        simp only [Bool.not_true, Bool.false_eq_true, if_false, hg, hg', ok_bind]
        refine (hline hs₂).bind fun c s d t hc hs => ?_
        obtain ⟨closed, s₃, t₃, hp, hp', hs₃⟩ := @hsim.peek _ _ [')'.toUInt8] hs (by decide)
        simp only [hp, hp', ok_bind]
        cases closed with
        | false => exact .error _
        | true =>
          obtain ⟨tok, w, s₄, v, t₄, hg, hg', hs₄, -⟩ := hsim.gettoken hs₃
          simp only [Bool.not_true, Bool.false_eq_true, if_false, hg, hg', ok_bind]
          exact hsim.parseredirs fuel hc hs₄
    · rw [Shell.parseexec, Shell.parseexec]
      obtain ⟨opened, s₁, t₁, hp, hp', hs₁⟩ := @hsim.peek _ _ ['('.toUInt8] hs (by decide)
      simp only [hp, hp', ok_bind]
      cases opened with
      | true => exact hblock hs₁
      | false =>
        refine (hsim.parseredirs fuel (.exec .nil) hs₁).bind fun c s d t hc hs => ?_
        exact hsim.parseargs fuel hc hs

end Source.Simulates

end Simulation

section Buffer

variable {s : List UInt8} {i : ℕ}

/-- The cursor is in the buffer, and these are the tokens after it. -/
def At (s : List UInt8) (i : ℕ) (ts : List Token) : Prop := i ≤ s.length ∧ lex (s.drop i) = ts

/-- The word between two positions of the buffer. -/
structure WordAt (s : List UInt8) (p : ℕ × ℕ) (w : List UInt8) : Prop where
  stop_eq : p.2 = p.1 + w.length
  stop_le : p.2 ≤ s.length
  text : s.drop p.1 = w ++ s.drop p.2
  chars : ∀ c ∈ w, isWord c = true
  stop : ∀ c ∈ (s.drop p.2).head?, isWord c = false

variable {c : UInt8} {rest : List UInt8}

theorem deref_of_drop (h : s.drop i = c :: rest) : deref s i = .ok c := by
  have hlt : i < s.length := by
    by_contra hge
    rw [List.drop_eq_nil_of_le (not_lt.mp hge)] at h
    cases h
  have hget : s[i]? = some c := by
    rw [← List.head?_drop, h]
    rfl
  rw [deref, List.getElem?_append_left hlt, hget]

theorem deref_length (s : List UInt8) : deref s s.length = .ok 0 := by
  rw [deref, List.getElem?_append_right le_rfl, Nat.sub_self]
  rfl

theorem length_of_drop (h : s.drop i = c :: rest) : i < s.length ∧ s.drop (i + 1) = rest := by
  constructor
  · by_contra hge
    rw [List.drop_eq_nil_of_le (not_lt.mp hge)] at h
    cases h
  · rw [← List.drop_drop, h]
    rfl

/-- A loop over characters ends at the first one that does not pass. -/
theorem skip_eq (passes : UInt8 → Bool) {n : ℕ} (hn : i + n = s.length) :
    ∃ j, skip s passes n i = .ok j ∧ j ≤ s.length ∧ j = i + ((s.drop i).takeWhile passes).length ∧
      s.drop j = (s.drop i).dropWhile passes := by
  induction n generalizing i with
  | zero =>
    have hnil : s.drop i = [] := List.drop_eq_nil_of_le (by omega)
    refine ⟨i, rfl, by omega, ?_, ?_⟩
    · rw [hnil]
      rfl
    · rw [hnil]
      rfl
  | succ n ih =>
    obtain ⟨c, rest, hdrop⟩ : ∃ c rest, s.drop i = c :: rest := by
      cases hdrop : s.drop i with
      | nil =>
        have hle := List.drop_eq_nil_iff.mp hdrop
        omega
      | cons c rest => exact ⟨c, rest, rfl⟩
    obtain ⟨-, hnext⟩ := length_of_drop hdrop
    rw [skip, deref_of_drop hdrop, ok_bind, hdrop]
    cases hc : passes c with
    | false =>
      refine ⟨i, rfl, by omega, ?_, ?_⟩
      · rw [List.takeWhile_cons_of_neg (by rw [hc]; exact Bool.false_ne_true)]
        rfl
      · rw [List.dropWhile_cons_of_neg (by rw [hc]; exact Bool.false_ne_true)]
        exact hdrop
    | true =>
      obtain ⟨j, hskip, hj, hlength, hrest⟩ := ih (by omega : i + 1 + n = s.length)
      rw [hnext] at hlength hrest
      refine ⟨j, ?_, hj, ?_, ?_⟩
      · exact hskip
      · rw [List.takeWhile_cons_of_pos hc, List.length_cons, hlength]
        omega
      · rw [List.dropWhile_cons_of_pos hc, hrest]

theorem skip_white (hi : i ≤ s.length) :
    ∃ j, skip s isWhite (s.length - i) i = .ok j ∧ j ≤ s.length ∧ s.drop j = (s.drop i).dropWhile isWhite := by
  obtain ⟨j, hskip, hj, -, hdrop⟩ := skip_eq isWhite (by omega : i + (s.length - i) = s.length)
  exact ⟨j, hskip, hj, hdrop⟩

theorem symbolToken_code {t : Token} (h : symbolToken c = some t) : t.code = c ∧ t.text = [c] ∧ c ≠ 0 ∧
    (c = '|'.toUInt8 ∨ c = '('.toUInt8 ∨ c = ')'.toUInt8 ∨ c = ';'.toUInt8 ∨ c = '&'.toUInt8 ∨ c = '<'.toUInt8) := by
  unfold symbolToken at h
  split_ifs at h with hc hc hc hc hc hc <;> cases h <;> subst hc <;> decide

theorem symbolToken_ne_word {w : List UInt8} : symbolToken c ≠ some (.word w) := by
  unfold symbolToken
  split_ifs <;> nofun

theorem symbolToken_none (h : symbolToken c = none) :
    ¬(c = '|'.toUInt8 ∨ c = '('.toUInt8 ∨ c = ')'.toUInt8 ∨ c = ';'.toUInt8 ∨ c = '&'.toUInt8 ∨ c = '<'.toUInt8) := by
  rintro (rfl | rfl | rfl | rfl | rfl | rfl) <;> cases h

/-- A character that is neither white space nor a symbol is part of a word. -/
theorem isWord_of_none (hwhite : isWhite c = false) (hsym : symbolToken c = none) (hgt : c ≠ '>'.toUInt8) :
    isWord c = true := by
  have hnone := symbolToken_none hsym
  simp only [not_or] at hnone
  have hcontains : symbols.contains c = false := by
    simp only [symbols, List.contains_cons, List.contains_nil, Bool.or_false, Bool.or_eq_false_iff, beq_eq_false_iff_ne]
    exact ⟨hnone.2.2.2.2.2, hnone.1, hgt, hnone.2.2.2.2.1, hnone.2.2.2.1, hnone.2.1, hnone.2.2.1⟩
  have hwhite' : whitespace.contains c = false := hwhite
  rw [isWord, hwhite', hcontains]
  rfl

/-- The token of the buffer at a character that is not white space. -/
theorem token_eq (hnul : (0 : UInt8) ∉ s) (hdrop : s.drop i = c :: rest) (hwhite : isWhite c = false) :
    ∃ j, token s i = .ok ((firstToken c rest).1.code, j) ∧ j ≤ s.length ∧ s.drop j = (firstToken c rest).2 ∧
      ∀ w, (firstToken c rest).1 = .word w → WordAt s (i, j) w := by
  obtain ⟨hlt, hnext⟩ := length_of_drop hdrop
  have hne : ¬c = 0 := fun heq => hnul (heq ▸ List.mem_of_mem_drop (hdrop ▸ List.mem_cons_self))
  rw [token, deref_of_drop hdrop, ok_bind, if_neg hne]
  cases hsym : symbolToken c with
  | some t =>
    obtain ⟨hcode, htext, -, hany⟩ := symbolToken_code hsym
    rw [if_pos hany, firstToken_symbol hsym]
    exact ⟨i + 1, by rw [hcode], hlt, hnext, fun w hw => absurd (hsym.trans (congrArg some hw)) symbolToken_ne_word⟩
  | none =>
    rw [if_neg (symbolToken_none hsym)]
    by_cases hgt : c = '>'.toUInt8
    · rw [if_pos hgt, hgt]
      cases rest with
      | nil =>
        have hend : i + 1 = s.length := by
          have hle := List.drop_eq_nil_iff.mp hnext
          omega
        have hne' : ¬(0 : UInt8) = '>'.toUInt8 := by decide
        rw [hend, deref_length, ok_bind, if_neg hne', firstToken_gt_end]
        exact ⟨s.length, rfl, le_rfl, List.drop_length, fun w hw => by cases hw⟩
      | cons d rest =>
        obtain ⟨hlt', hnext'⟩ := length_of_drop hnext
        rw [deref_of_drop hnext, ok_bind]
        by_cases hd : d = '>'.toUInt8
        · rw [if_pos hd, hd, firstToken_gtgt]
          exact ⟨i + 2, rfl, hlt', hnext', fun w hw => by cases hw⟩
        · rw [if_neg hd, firstToken_gt hd]
          exact ⟨i + 1, rfl, hlt'.le, hnext, fun w hw => by cases hw⟩
    rw [if_neg hgt, firstToken_word hsym hgt]
    obtain ⟨j, hskip, hj, hlength, hrest⟩ := skip_eq isWord (by omega : i + (s.length - i) = s.length)
    have hword := isWord_of_none hwhite hsym hgt
    rw [hdrop, List.takeWhile_cons_of_pos hword] at hlength
    rw [hdrop, List.dropWhile_cons_of_pos hword] at hrest
    rw [hskip, ok_bind]
    refine ⟨j, rfl, hj, hrest, fun w hw => ?_⟩
    cases hw
    refine ⟨hlength, hj, ?_, ?_, ?_⟩
    · rw [hdrop, hrest, List.cons_append, List.takeWhile_append_dropWhile]
    · exact List.forall_mem_cons.mpr ⟨hword, fun d hd => (List.mem_takeWhile_imp hd)⟩
    intro d hd
    rw [hrest] at hd
    exact Bool.eq_false_iff.mpr fun hd' => by
      have hhead := List.head?_dropWhile_not isWord rest
      rw [Option.mem_def.mp hd] at hhead
      simp [hd'] at hhead

theorem gettoken_eq {q eq k : ℕ} {ret : UInt8} (hskip : skip s isWhite (s.length - i) i = .ok q)
    (htoken : token s q = .ok (ret, eq)) (hskip' : skip s isWhite (s.length - eq) eq = .ok k) :
    gettoken s i = .ok (ret, (q, eq), k) := by
  simp only [gettoken, hskip, htoken, hskip', ok_bind]

/-- Where white space was passed there is none. -/
theorem not_white_of_dropWhile {line : List UInt8} (h : line.dropWhile isWhite = c :: rest) : isWhite c = false := by
  have hhead := List.head?_dropWhile_not isWhite line
  rw [h] at hhead
  simpa using hhead

/-- What `peek` finds is the character the next token begins with. -/
theorem peek_firstToken {toks : List UInt8} (htoks : toks ⊆ symbols) (hwhite : isWhite c = false) (ts : List Token) :
    tokens.peek toks ((firstToken c rest).1 :: ts) = .ok (toks.contains c, (firstToken c rest).1 :: ts) := by
  cases hsym : symbolToken c with
  | some t =>
    obtain ⟨hcode, htext, -, hany⟩ := symbolToken_code hsym
    rw [firstToken_symbol hsym]
    cases t with
    | word w => exact absurd hsym symbolToken_ne_word
    | gtgt =>
      subst hcode
      exact absurd hsym (by decide)
    | _ =>
      subst hcode
      simp [tokens]
  | none =>
    by_cases hgt : c = '>'.toUInt8
    · subst hgt
      cases rest with
      | nil => simp [firstToken_gt_end, tokens, Token.code]
      | cons d rest =>
        by_cases hd : d = '>'.toUInt8
        · subst hd
          simp [firstToken_gtgt, tokens]
        · simp [firstToken_gt hd, tokens, Token.code]
    rw [firstToken_word hsym hgt]
    have hword := isWord_of_none hwhite hsym hgt
    have hnot : toks.contains c = false := by
      refine Bool.eq_false_iff.mpr fun hin => ?_
      have hsymbol : symbols.contains c = true := List.contains_iff_mem.mpr (htoks (List.contains_iff_mem.mp hin))
      rw [isWord, hsymbol, Bool.not_true, Bool.and_false] at hword
      cases hword
    rw [hnot]
    rfl

/-- A token of the buffer is the next one of the line. After a word come the tokens from its end on. -/
theorem gettoken_at (hnul : (0 : UInt8) ∉ s) {ts : List Token} (h : At s i ts) :
    ∃ code p k v ts', gettoken s i = .ok (code, p, k) ∧ tokens.gettoken ts = .ok (code, v, ts') ∧ At s k ts' ∧
      (code = 'a'.toUInt8 → WordAt s p v ∧ ts = .word v :: lex (s.drop p.2)) := by
  obtain ⟨hi, rfl⟩ := h
  obtain ⟨q, hskip, hq, hdrop⟩ := skip_white hi
  cases hline : (s.drop i).dropWhile isWhite with
  | nil =>
    rw [hline] at hdrop
    have hqs : q = s.length := Nat.le_antisymm hq (List.drop_eq_nil_iff.mp hdrop)
    have htoken : token s q = .ok (0, q) := by
      rw [token, hqs, deref_length, ok_bind, if_pos rfl]
    obtain ⟨j, hskip', hj, hdrop'⟩ := skip_white hq
    rw [hdrop] at hdrop'
    rw [lex_of_nil hline]
    exact ⟨0, (q, q), j, [], [], gettoken_eq hskip htoken hskip', rfl, ⟨hj, hdrop' ▸ lex_of_nil rfl⟩, fun h =>
      absurd h (by decide)⟩
  | cons c rest =>
    rw [hline] at hdrop
    obtain ⟨j, htoken, hj, hrest, hword⟩ := token_eq hnul hdrop (not_white_of_dropWhile hline)
    obtain ⟨k, hskip', hk, hdrop'⟩ := skip_white hj
    rw [lex_of_cons hline]
    refine ⟨_, (q, j), k, _, _, gettoken_eq hskip htoken hskip', rfl, ⟨hk, ?_⟩, fun hcode => ?_⟩
    · rw [hdrop', lex_dropWhile, hrest]
    cases htok : (firstToken c rest).1 with
    | word w => exact ⟨hword w htok, by rw [hrest, Token.text]⟩
    | _ =>
      rw [htok] at hcode
      exact absurd hcode (by decide)

/-- The buffer of the shell gives the tokens of the line. -/
theorem buffer_simulates (hnul : (0 : UInt8) ∉ s) : (buffer s).Simulates tokens (At s) (WordAt s) := by
  constructor
  · intro i ts h
    obtain ⟨code, p, k, v, ts', hget, htokens, hat, hword⟩ := gettoken_at hnul h
    exact ⟨code, p, k, v, ts', hget, htokens, hat, fun hcode => (hword hcode).1⟩
  · rintro i ts toks ⟨hi, rfl⟩ htoks
    obtain ⟨q, hskip, hq, hdrop⟩ := skip_white hi
    have hat : At s q (lex (s.drop i)) := ⟨hq, by rw [hdrop, lex_dropWhile]⟩
    change ∃ found s' t', peek s toks i = _ ∧ _
    rw [peek, hskip, ok_bind]
    cases hline : (s.drop i).dropWhile isWhite with
    | nil =>
      rw [hline] at hdrop
      have hqs : q = s.length := Nat.le_antisymm hq (List.drop_eq_nil_iff.mp hdrop)
      rw [lex_of_nil hline] at hat ⊢
      refine ⟨false, q, [], ?_, rfl, hat⟩
      rw [hqs, deref_length]
      rfl
    | cons c rest =>
      rw [hline] at hdrop
      have hne : c ≠ 0 := fun heq => hnul (heq ▸ List.mem_of_mem_drop (hdrop ▸ List.mem_cons_self))
      rw [lex_of_cons hline] at hat ⊢
      refine ⟨toks.contains c, q, _, ?_, peek_firstToken htoks (not_white_of_dropWhile hline) _, hat⟩
      rw [deref_of_drop hdrop, ok_bind]
      simp [hne]

end Buffer

end Xv6.Shell
