import Xv6.Shell.Tokens

/-!
# The grammar of command lines

A line is commands separated by `;`, each followed by any number of `&`; a command is a pipeline; what stands between
the bars is a line in parentheses or words, with redirections after it or among them. The parser takes from a list of
tokens what the grammar derives and nothing else, and panics where the list does not go on as the grammar says.
-/

namespace Xv6.Shell

open Lib
open List (cons_append length_cons flatMap_cons append_assoc foldl_cons foldl_append length_append)

/-- The symbols of redirections. -/
inductive Op
  | lt
  | gt
  | gtgt
  deriving DecidableEq, Repr

def Op.token : Op → Token
  | .lt => .lt
  | .gt => .gt
  | .gtgt => .gtgt

/-- How the file is opened. Nothing tells `>>` from `>`. -/
def Op.mode : Op → ℕ
  | .lt => O_RDONLY
  | .gt | .gtgt => O_WRONLY ||| O_CREATE

/-- The descriptor that is redirected. -/
def Op.fd : Op → ℕ
  | .lt => 0
  | .gt | .gtgt => 1

/-- Command trees, with words as they are written. -/
abbrev Tree := Cmd (List UInt8)

/-- A redirection of a command. -/
structure Redir where
  op : Op
  file : List UInt8

def Redir.tokens (r : Redir) : List Token := [r.op.token, .word r.file]

/-- The redirection wrapped around a command. -/
def Redir.wrap (cmd : Tree) (r : Redir) : Tree := .redir cmd r.file r.op.mode r.op.fd

/-- A word or a redirection of a simple command. -/
inductive Item
  | word (text : List UInt8)
  | redir (r : Redir)

def Item.tokens : Item → List Token
  | .word text => [.word text]
  | .redir r => r.tokens

/-- The words of a simple command. -/
def words (items : List Item) : List (List UInt8) :=
  items.filterMap fun
    | .word text => some text
    | .redir _ => none

/-- The redirections of a simple command. -/
def redirs (items : List Item) : List Redir :=
  items.filterMap fun
    | .word _ => none
    | .redir r => some r

/-- The command that words and redirections stand for. -/
def simple (items : List Item) : Tree := (redirs items).foldl Redir.wrap (.exec (words items))

inductive Nonterminal
  | line
  | pipe
  | exec

/-- The tokens derive the tree. -/
inductive Derives : Nonterminal → List Token → Tree → Prop
  /-- line ::= pipe '&'* -/
  | line {ts : List Token} {t : Tree} (n : ℕ) (h : Derives .pipe ts t) :
      Derives .line (ts ++ List.replicate n .amp) (Cmd.back^[n] t)
  /-- line ::= pipe '&'* ';' line -/
  | list {ts ts' : List Token} {t t' : Tree} (n : ℕ) (h : Derives .pipe ts t) (h' : Derives .line ts' t') :
      Derives .line (ts ++ (List.replicate n .amp ++ .semi :: ts')) (.list (Cmd.back^[n] t) t')
  /-- pipe ::= exec -/
  | pipe {ts : List Token} {t : Tree} (h : Derives .exec ts t) : Derives .pipe ts t
  /-- pipe ::= exec '|' pipe -/
  | bar {ts ts' : List Token} {t t' : Tree} (h : Derives .exec ts t) (h' : Derives .pipe ts' t') :
      Derives .pipe (ts ++ .bar :: ts') (.pipe t t')
  /-- exec ::= '(' line ')' redir* -/
  | block {ts : List Token} {t : Tree} (rs : List Redir) (h : Derives .line ts t) :
      Derives .exec (.lparen :: (ts ++ .rparen :: rs.flatMap Redir.tokens)) (rs.foldl Redir.wrap t)
  /-- exec ::= redir* (word redir*)*, with at most MAXARGS - 1 words -/
  | simple (items : List Item) (h : (words items).length ≤ MAXARGS - 1) :
      Derives .exec (items.flatMap Item.tokens) (simple items)

section Tokens

variable {fuel n : ℕ} {ts rest : List Token} {t : Token} {cmd : Tree} {toks : List UInt8}

theorem gettoken_cons : tokens.gettoken (t :: ts) = .ok (t.code, t.text, ts) := rfl

/-- The next token is one of these, or there is none. -/
def Ends (allowed : List Token) (ts : List Token) : Prop := ∀ t ∈ ts.head?, t ∈ allowed

theorem redircmd_op (op : Op) (file : List UInt8) (cmd : Tree) :
    redircmd op.token.code file cmd = Redir.wrap cmd ⟨op, file⟩ := by
  cases op <;> rfl

/-- A redirection symbol is next, or none is. -/
theorem op_or_not (ts : List Token) :
    (∃ op rest, ts = Op.token op :: rest) ∨ tokens.peek ['<'.toUInt8, '>'.toUInt8] ts = .ok (false, ts) := by
  cases ts with
  | nil => exact .inr rfl
  | cons t ts =>
    cases t with
    | lt => exact .inl ⟨.lt, ts, rfl⟩
    | gt => exact .inl ⟨.gt, ts, rfl⟩
    | gtgt => exact .inl ⟨.gtgt, ts, rfl⟩
    | _ => exact .inr rfl

theorem peek_op (op : Op) (ts : List Token) :
    tokens.peek ['<'.toUInt8, '>'.toUInt8] (op.token :: ts) = .ok (true, op.token :: ts) := by
  cases op <;> rfl

theorem parseredirs_redir (r : Redir) :
    parseredirs tokens (fuel + 1) cmd (r.tokens ++ ts) = parseredirs tokens fuel (r.wrap cmd) ts := by
  rw [parseredirs, Redir.tokens, cons_append, peek_op]
  simp only [ok_bind, if_true, gettoken_cons, List.singleton_append, redircmd_op]
  rfl

theorem parseredirs_done (h : tokens.peek ['<'.toUInt8, '>'.toUInt8] ts = .ok (false, ts)) :
    parseredirs tokens (fuel + 1) cmd ts = .ok (cmd, ts) := by
  rw [parseredirs, h]
  rfl

/-- A redirection symbol without a word after it. -/
theorem parseredirs_missing (op : Op) (h : ∀ w rest, ts ≠ .word w :: rest) :
    parseredirs tokens (fuel + 1) cmd (op.token :: ts) = .error (.panic "missing file for redirection") := by
  rw [parseredirs, peek_op]
  cases ts with
  | nil => rfl
  | cons t ts =>
    cases t with
    | word w => exact absurd rfl (h w ts)
    | _ => rfl

/-- The redirections that come next are wrapped around the command, or a file is missing. -/
theorem parseredirs_spec (hfuel : ts.length < fuel) :
    (∃ (rs : List Redir) (rest : List Token), ts = rs.flatMap Redir.tokens ++ rest ∧
      parseredirs tokens fuel cmd ts = .ok (rs.foldl Redir.wrap cmd, rest)) ∨
      ∃ message, parseredirs tokens fuel cmd ts = .error (.panic message) := by
  induction fuel generalizing ts cmd with
  | zero => exact absurd hfuel (Nat.not_lt_zero _)
  | succ fuel ih =>
    rcases op_or_not ts with ⟨op, rest, rfl⟩ | hnone
    · by_cases hword : ∃ w rest', rest = .word w :: rest'
      · obtain ⟨w, rest, rfl⟩ := hword
        have hturn := @parseredirs_redir fuel rest cmd ⟨op, w⟩
        rw [Redir.tokens, cons_append, List.singleton_append] at hturn
        rw [hturn]
        rw [length_cons, length_cons] at hfuel
        rcases @ih rest (Redir.wrap cmd ⟨op, w⟩) (by omega) with ⟨rs, rest', rfl, heq⟩ | hpanic
        · exact .inl ⟨⟨op, w⟩ :: rs, rest', rfl, heq⟩
        · exact .inr hpanic
      · exact .inr ⟨_, parseredirs_missing op fun w rest' heq => hword ⟨w, rest', heq⟩⟩
    · exact .inl ⟨[], ts, rfl, parseredirs_done hnone⟩

/-- All the redirections are taken where something else comes next. -/
theorem parseredirs_complete (rs : List Redir) (hrest : tokens.peek ['<'.toUInt8, '>'.toUInt8] rest = .ok (false, rest))
    (hfuel : rs.length < fuel) :
    parseredirs tokens fuel cmd (rs.flatMap Redir.tokens ++ rest) = .ok (rs.foldl Redir.wrap cmd, rest) := by
  induction rs generalizing fuel cmd with
  | nil =>
    obtain ⟨fuel, rfl⟩ := Nat.exists_eq_add_one.mpr hfuel
    exact parseredirs_done hrest
  | cons r rs ih =>
    obtain ⟨fuel, rfl⟩ := Nat.exists_eq_add_one.mpr (Nat.zero_lt_of_lt hfuel)
    rw [flatMap_cons, append_assoc, parseredirs_redir, foldl_cons]
    exact ih (Nat.lt_of_succ_lt_succ hfuel)

/-- A word or a redirection added to the command so far. -/
def Item.apply (cmd : Tree) : Item → Tree
  | .word text => cmd.addArg text
  | .redir r => r.wrap cmd

theorem foldl_wrap_addArg (rs : List Redir) (w : List UInt8) :
    (rs.foldl Redir.wrap cmd).addArg w = rs.foldl Redir.wrap (cmd.addArg w) := by
  induction rs generalizing cmd with
  | nil => rfl
  | cons r rs ih => exact ih

/-- Words go to the command inside, redirections around it. -/
theorem foldl_apply (items : List Item) (rs : List Redir) (ws : List (List UInt8)) :
    items.foldl Item.apply (rs.foldl Redir.wrap (.exec ws)) =
      (rs ++ redirs items).foldl Redir.wrap (.exec (ws ++ words items)) := by
  induction items generalizing rs ws with
  | nil => simp [redirs, words]
  | cons item items ih =>
    cases item with
    | word w =>
      rw [foldl_cons, Item.apply, foldl_wrap_addArg]
      have hrest := ih rs (ws ++ [w])
      simpa [redirs, words, Cmd.addArg] using hrest
    | redir r =>
      have hwrap :
          Item.apply (rs.foldl Redir.wrap (.exec ws)) (.redir r) = (rs ++ [r]).foldl Redir.wrap (.exec ws) := by
        rw [foldl_append]
        rfl
      rw [foldl_cons, hwrap, ih (rs ++ [r]) ws]
      simp [redirs, words]

theorem simple_eq (items : List Item) : items.foldl Item.apply (.exec []) = simple items := foldl_apply items [] []

/-- Whether a separator is next. -/
theorem peek_sep {sep : Token} (hsep : sep ∈ [Token.bar, .lparen, .rparen, .semi, .amp]) (ts : List Token) :
    (∃ rest, ts = sep :: rest ∧ tokens.peek [sep.code] ts = .ok (true, ts)) ∨
      (∀ rest, ts ≠ sep :: rest) ∧ tokens.peek [sep.code] ts = .ok (false, ts) := by
  cases ts with
  | nil => exact .inr ⟨fun rest => (List.cons_ne_nil sep rest).symm, rfl⟩
  | cons t ts =>
    by_cases heq : t = sep
    · subst heq
      refine .inl ⟨ts, rfl, ?_⟩
      fin_cases hsep <;> rfl
    · refine .inr ⟨fun rest h => heq (List.cons.inj h).1, ?_⟩
      fin_cases hsep <;> cases t <;> first | rfl | exact absurd rfl heq

end Tokens

section Loops

variable {fuel argc : ℕ} {ts rest : List Token} {t : Token} {cmd : Tree}

theorem parsebacks_spec (hfuel : ts.length < fuel) :
    ∃ n rest, ts = List.replicate n .amp ++ rest ∧ parsebacks tokens fuel cmd ts = .ok (Cmd.back^[n] cmd, rest) := by
  induction fuel generalizing ts cmd with
  | zero => exact absurd hfuel (Nat.not_lt_zero _)
  | succ fuel ih =>
    rw [parsebacks]
    rcases peek_sep (by decide : Token.amp ∈ _) ts with ⟨rest, rfl, hpeek⟩ | ⟨-, hpeek⟩
    · obtain ⟨n, rest, rfl, heq⟩ := @ih rest (.back cmd) (Nat.lt_of_succ_lt_succ hfuel)
      refine ⟨n + 1, rest, rfl, ?_⟩
      exact heq
    · rw [Token.code] at hpeek
      rw [hpeek]
      exact ⟨0, ts, rfl, rfl⟩

theorem parsebacks_complete (n : ℕ) (hrest : ∀ rest', rest ≠ .amp :: rest') (hfuel : n < fuel) :
    parsebacks tokens fuel cmd (List.replicate n .amp ++ rest) = .ok (Cmd.back^[n] cmd, rest) := by
  induction n generalizing fuel cmd with
  | zero =>
    obtain ⟨fuel, rfl⟩ := Nat.exists_eq_add_one.mpr hfuel
    rw [parsebacks]
    rcases peek_sep (by decide : Token.amp ∈ _) rest with ⟨rest', heq, -⟩ | ⟨-, hpeek⟩
    · exact absurd heq (hrest rest')
    · rw [Token.code] at hpeek
      rw [List.replicate_zero, List.nil_append, hpeek]
      rfl
  | succ n ih =>
    obtain ⟨fuel, rfl⟩ := Nat.exists_eq_add_one.mpr (Nat.zero_lt_of_lt hfuel)
    exact ih (Nat.lt_of_succ_lt_succ hfuel)

theorem parseargs_end : parseargs tokens (fuel + 1) cmd argc [] = .ok (cmd, []) := rfl

theorem parseargs_sep (h : t ∈ [Token.bar, .rparen, .amp, .semi]) :
    parseargs tokens (fuel + 1) cmd argc (t :: ts) = .ok (cmd, t :: ts) := by
  fin_cases h <;> rfl

theorem parseargs_word {w : List UInt8} : parseargs tokens (fuel + 1) cmd argc (.word w :: ts) =
      if argc + 1 ≥ MAXARGS then .error (.panic "too many args")
      else parseredirs tokens fuel (cmd.addArg w) ts >>= fun (ret, ps) => parseargs tokens fuel ret (argc + 1) ps := rfl

theorem parseargs_other (h : t ∈ [Token.lparen, .lt, .gt, .gtgt]) :
    parseargs tokens (fuel + 1) cmd argc (t :: ts) = .error (.panic "syntax") := by
  fin_cases h <;> rfl

/-- Words and redirections are added to the command, or there are too many or something else is next. -/
theorem parseargs_spec (hargc : argc ≤ MAXARGS - 1) (hfuel : ts.length < fuel) :
    (∃ (items : List Item) (rest : List Token), ts = items.flatMap Item.tokens ++ rest ∧
      argc + (words items).length ≤ MAXARGS - 1 ∧
      parseargs tokens fuel cmd argc ts = .ok (items.foldl Item.apply cmd, rest)) ∨
      ∃ message, parseargs tokens fuel cmd argc ts = .error (.panic message) := by
  induction fuel generalizing ts cmd argc with
  | zero => exact absurd hfuel (Nat.not_lt_zero _)
  | succ fuel ih =>
    cases ts with
    | nil => exact .inl ⟨[], [], rfl, hargc, parseargs_end⟩
    | cons t ts =>
      have hfuel' : ts.length < fuel := Nat.lt_of_succ_lt_succ hfuel
      cases t with
      | word w =>
        rw [parseargs_word]
        by_cases hmany : argc + 1 ≥ MAXARGS
        · rw [if_pos hmany]
          exact .inr ⟨_, rfl⟩
        rw [if_neg hmany]
        rcases @parseredirs_spec fuel ts (cmd.addArg w) hfuel' with ⟨rs, rest, rfl, heq⟩ | ⟨message, heq⟩
        · rw [heq, ok_bind]
          dsimp only
          have hlength : rest.length < fuel := by
            rw [length_append] at hfuel'
            omega
          rcases @ih (argc + 1) rest (rs.foldl Redir.wrap (cmd.addArg w)) (by omega) hlength with
            ⟨items, rest', rfl, hwords, heq'⟩ | hpanic
          · refine .inl ⟨.word w :: (rs.map .redir ++ items), rest', ?_, ?_, ?_⟩
            · simp [Item.tokens, List.flatMap_append, List.flatMap_map]
            · have hcount : words (.word w :: (rs.map .redir ++ items)) = w :: words items := by
                simp [words, List.filterMap_append, List.filterMap_map]
              rw [hcount, length_cons]
              omega
            · have hfold :
                  (rs.map Item.redir).foldl Item.apply (cmd.addArg w) = rs.foldl Redir.wrap (cmd.addArg w) := by
                rw [List.foldl_map]
                rfl
              rw [heq', foldl_cons, foldl_append, Item.apply, hfold]
          · exact .inr hpanic
        · rw [heq]
          exact .inr ⟨message, rfl⟩
      | bar | rparen | amp | semi => exact .inl ⟨[], _, rfl, hargc, parseargs_sep (by decide)⟩
      | lparen | lt | gt | gtgt => exact .inr ⟨_, parseargs_other (by decide)⟩

theorem Ends.peek_redir {allowed : List Token} (h : Ends allowed rest) (hsub : allowed ⊆ [.rparen, .amp, .semi, .bar]) :
    tokens.peek ['<'.toUInt8, '>'.toUInt8] rest = .ok (false, rest) := by
  cases rest with
  | nil => rfl
  | cons t rest =>
    have hin : t ∈ [Token.rparen, .amp, .semi, .bar] := hsub (h t rfl)
    fin_cases hin <;> rfl

/-- A simple command is taken as a whole where a separator comes next. -/
theorem parseargs_complete (items : List Item) {fuel' : ℕ} (hrest : Ends [.rparen, .amp, .semi, .bar] rest)
    (hwords : argc + (words items).length ≤ MAXARGS - 1) (hfuel : (items.flatMap Item.tokens).length < fuel)
    (hfuel' : (items.flatMap Item.tokens).length < fuel') :
    (parseredirs tokens fuel cmd (items.flatMap Item.tokens ++ rest) >>= fun (ret, ps) =>
      parseargs tokens fuel' ret argc ps) =
      .ok (items.foldl Item.apply cmd, rest) := by
  induction items generalizing fuel fuel' cmd argc with
  | nil =>
    obtain ⟨fuel, rfl⟩ := Nat.exists_eq_add_one.mpr hfuel
    obtain ⟨fuel', rfl⟩ := Nat.exists_eq_add_one.mpr hfuel'
    rw [List.flatMap_nil, List.nil_append, parseredirs_done (hrest.peek_redir (by decide)), ok_bind]
    cases rest with
    | nil => exact parseargs_end
    | cons t rest =>
      have hin : t ∈ [Token.rparen, .amp, .semi, .bar] := hrest t rfl
      exact parseargs_sep (by simpa [or_comm, or_left_comm] using hin)
  | cons item items ih =>
    rw [flatMap_cons, length_append] at hfuel hfuel'
    cases item with
    | word w =>
      obtain ⟨fuel, rfl⟩ := Nat.exists_eq_add_one.mpr (Nat.zero_lt_of_lt hfuel)
      obtain ⟨fuel', rfl⟩ := Nat.exists_eq_add_one.mpr (Nat.zero_lt_of_lt hfuel')
      have hcount : (words (.word w :: items)).length = (words items).length + 1 := rfl
      have hone : (Item.word w).tokens.length = 1 := rfl
      have hfew : ¬argc + 1 ≥ MAXARGS := by
        omega
      change parseargs tokens (fuel' + 1) cmd argc (.word w :: (items.flatMap Item.tokens ++ rest)) = _
      rw [parseargs_word, if_neg hfew]
      exact ih (by omega) (by omega) (by omega)
    | redir r =>
      obtain ⟨fuel, rfl⟩ := Nat.exists_eq_add_one.mpr (Nat.zero_lt_of_lt hfuel)
      have htwo : (Item.redir r).tokens.length = 2 := rfl
      have hturn : parseredirs tokens (fuel + 1) cmd ((Item.redir r :: items).flatMap Item.tokens ++ rest) =
          parseredirs tokens fuel (r.wrap cmd) (items.flatMap Item.tokens ++ rest) := by
        exact parseredirs_redir r
      rw [hturn]
      exact ih hwords (by omega) (by omega)

end Loops

section Parse

variable {fuel : ℕ} {ts ts' pre rest : List Token} {t t' : Tree} {nt : Nonterminal}

/-- The function of the parser for a nonterminal. -/
def parse : Nonterminal → ℕ → List Token → Except Stop (Tree × List Token)
  | .line => parseline tokens
  | .pipe => parsepipe tokens
  | .exec => parseexec tokens

/-- Turns that are enough for a list of tokens. -/
def turns : Nonterminal → ℕ → ℕ
  | .line, n => 4 * n + 4
  | .pipe, n => 4 * n + 3
  | .exec, n => 4 * n + 2

/-- A result that the grammar derives from the tokens it took, or a panic. -/
inductive Outcome (nt : Nonterminal) (ts : List Token) : Except Stop (Tree × List Token) → Prop
  | ok {t : Tree} {pre rest : List Token} (hts : ts = pre ++ rest) (h : Derives nt pre t) :
    Outcome nt ts (.ok (t, rest))
  | panic (message : Panic) : Outcome nt ts (.error (.panic message))

theorem parse_exec (hparse : ∀ ts, turns .line ts.length ≤ fuel → Outcome .line ts (parseline tokens fuel ts))
    (hfuel : turns .exec ts.length ≤ fuel + 2) : Outcome .exec ts (parseexec tokens (fuel + 2) ts) := by
  have hfuel' : 4 * ts.length + 2 ≤ fuel + 2 := hfuel
  rw [parseexec]
  rcases peek_sep (by decide : Token.lparen ∈ _) ts with ⟨inner, rfl, hpeek⟩ | ⟨-, hpeek⟩
  · rw [Token.code] at hpeek
    rw [hpeek, ok_bind]
    simp only [if_true]
    rw [parseblock, hpeek, ok_bind]
    simp only [Bool.not_true, Bool.false_eq_true, if_false, gettoken_cons, ok_bind]
    rw [length_cons] at hfuel'
    have hline := hparse inner (by change 4 * inner.length + 4 ≤ fuel; omega)
    generalize parseline tokens fuel inner = x at hline
    cases hline with
    | panic message => exact .panic message
    | @ok t pre rest hinner hd =>
      rw [ok_bind]
      rcases peek_sep (by decide : Token.rparen ∈ _) rest with ⟨after, rfl, hpeek'⟩ | ⟨-, hpeek'⟩
      · rw [Token.code] at hpeek'
        rw [hpeek', ok_bind]
        simp only [Bool.not_true, Bool.false_eq_true, if_false, gettoken_cons, ok_bind]
        have hlength : after.length < fuel := by
          have heq := congrArg List.length hinner
          rw [length_append, length_cons] at heq
          omega
        rcases @parseredirs_spec fuel after t hlength with ⟨rs, rest, rfl, heq⟩ | ⟨message, heq⟩
        · rw [heq]
          exact .ok (by simp [hinner]) (.block rs hd)
        · rw [heq]
          exact .panic message
      · rw [Token.code] at hpeek'
        rw [hpeek']
        exact .panic _
  · rw [Token.code] at hpeek
    rw [hpeek, ok_bind]
    simp only [Bool.false_eq_true, if_false]
    rcases @parseredirs_spec (fuel + 1) ts (.exec []) (by omega) with ⟨rs, rest, rfl, heq⟩ | ⟨message, heq⟩
    · rw [heq, ok_bind]
      have hlength : rest.length < fuel + 1 := by
        rw [length_append] at hfuel'
        omega
      rcases @parseargs_spec (fuel + 1) 0 rest (rs.foldl Redir.wrap (.exec [])) (Nat.zero_le _) hlength with
        ⟨items, rest, rfl, hwords, heq'⟩ | ⟨message, heq'⟩
      · rw [heq']
        have hcount : words (rs.map .redir ++ items) = words items := by
          simp [words, List.filterMap_append, List.filterMap_map]
        have hd : Derives .exec ((rs.map Item.redir ++ items).flatMap Item.tokens) (simple (rs.map .redir ++ items)) :=
          .simple _ (by rw [hcount]; omega)
        have htree : simple (rs.map .redir ++ items) = items.foldl Item.apply (rs.foldl Redir.wrap (.exec [])) := by
          rw [← simple_eq, foldl_append, List.foldl_map]
          rfl
        rw [htree] at hd
        exact .ok (by simp [List.flatMap_append, List.flatMap_map, Item.tokens]) hd
      · rw [heq']
        exact .panic message
    · rw [heq]
      exact .panic message

theorem parse_pipe (hexec : Outcome .exec ts (parseexec tokens fuel ts))
    (hpipe : ∀ ts, turns .pipe ts.length ≤ fuel → Outcome .pipe ts (parsepipe tokens fuel ts))
    (hfuel : turns .pipe ts.length ≤ fuel + 1) : Outcome .pipe ts (parsepipe tokens (fuel + 1) ts) := by
  have hfuel' : 4 * ts.length + 3 ≤ fuel + 1 := hfuel
  rw [parsepipe]
  generalize parseexec tokens fuel ts = x at hexec
  cases hexec with
  | panic message => exact .panic message
  | @ok t pre rest hts hd =>
    rw [ok_bind]
    dsimp only
    rcases peek_sep (by decide : Token.bar ∈ _) rest with ⟨right, rfl, hpeek⟩ | ⟨-, hpeek⟩
    · rw [Token.code] at hpeek
      rw [hpeek, ok_bind]
      simp only [if_true, gettoken_cons, ok_bind]
      have hlength := congrArg List.length hts
      rw [length_append, length_cons] at hlength
      have hright := hpipe right (by change 4 * right.length + 3 ≤ fuel; omega)
      generalize parsepipe tokens fuel right = y at hright
      cases hright with
      | panic message => exact .panic message
      | ok hts' hd' => exact .ok (by rw [hts, hts', append_assoc, cons_append]) (.bar hd hd')
    · rw [Token.code] at hpeek
      rw [hpeek]
      exact .ok hts (.pipe hd)

theorem parse_line (hpipe : Outcome .pipe ts (parsepipe tokens fuel ts))
    (hline : ∀ ts, turns .line ts.length ≤ fuel → Outcome .line ts (parseline tokens fuel ts))
    (hfuel : turns .line ts.length ≤ fuel + 1) : Outcome .line ts (parseline tokens (fuel + 1) ts) := by
  have hfuel' : 4 * ts.length + 4 ≤ fuel + 1 := hfuel
  rw [parseline]
  generalize parsepipe tokens fuel ts = x at hpipe
  cases hpipe with
  | panic message => exact .panic message
  | @ok t pre rest hts hd =>
    have hlength := congrArg List.length hts
    rw [length_append] at hlength
    obtain ⟨n, rest, rfl, hbacks⟩ := @parsebacks_spec fuel rest t (by omega)
    rw [length_append] at hlength
    rw [ok_bind]
    dsimp only
    rw [hbacks, ok_bind]
    rcases peek_sep (by decide : Token.semi ∈ _) rest with ⟨right, rfl, hpeek⟩ | ⟨-, hpeek⟩
    · rw [Token.code] at hpeek
      rw [hpeek, ok_bind]
      simp only [if_true, gettoken_cons, ok_bind]
      rw [length_cons] at hlength
      have hright := hline right (by change 4 * right.length + 4 ≤ fuel; omega)
      generalize parseline tokens fuel right = y at hright
      cases hright with
      | panic message => exact .panic message
      | ok hts' hd' =>
        refine .ok ?_ (.list n hd hd')
        rw [hts, hts']
        simp
    · rw [Token.code] at hpeek
      rw [hpeek]
      exact .ok (by rw [hts, append_assoc]) (.line n hd)

/-- With enough turns the parser returns what the grammar derives, or panics. -/
theorem parse_outcome (nt : Nonterminal) (hfuel : turns nt ts.length ≤ fuel) : Outcome nt ts (parse nt fuel ts) := by
  induction fuel using Nat.strong_induction_on generalizing nt ts with
  | _ fuel ih =>
    cases nt with
    | exec =>
      obtain ⟨fuel, rfl⟩ := Nat.exists_eq_add_of_le' ((Nat.le_add_left 2 _).trans hfuel)
      exact parse_exec (fun ts hts => ih fuel (by omega) .line hts) hfuel
    | pipe =>
      obtain ⟨fuel, rfl⟩ := Nat.exists_eq_add_of_le' ((Nat.le_add_left 1 _).trans hfuel)
      have hexec : turns .exec ts.length ≤ fuel := Nat.le_of_succ_le_succ hfuel
      exact parse_pipe (ih fuel (Nat.lt_succ_self _) .exec hexec)
        (fun ts hts => ih fuel (Nat.lt_succ_self _) .pipe hts) hfuel
    | line =>
      obtain ⟨fuel, rfl⟩ := Nat.exists_eq_add_of_le' ((Nat.le_add_left 1 _).trans hfuel)
      have hpipe : turns .pipe ts.length ≤ fuel := Nat.le_of_succ_le_succ hfuel
      exact parse_line (ih fuel (Nat.lt_succ_self _) .pipe hpipe)
        (fun ts hts => ih fuel (Nat.lt_succ_self _) .line hts) hfuel

/-- What can come after a nonterminal. -/
def follow : Nonterminal → List Token
  | .line => [.rparen]
  | .pipe => [.rparen, .amp, .semi]
  | .exec => [.rparen, .amp, .semi, .bar]

variable {allowed : List Token} {sep : Token}

theorem Ends.mono {allowed' : List Token} (h : Ends allowed rest) (hsub : allowed ⊆ allowed') : Ends allowed' rest :=
  fun t ht => hsub (h t ht)

theorem Ends.ne (h : Ends allowed rest) (hsep : sep ∉ allowed) (after : List Token) : rest ≠ sep :: after := by
  rintro rfl
  exact hsep (h sep rfl)

/-- What can come after a line can come after the `&` of a command as well. -/
theorem Ends.replicate (n : ℕ) (h : Ends allowed rest) (hsub : allowed ⊆ follow .pipe) :
    Ends (follow .pipe) (List.replicate n .amp ++ rest) := by
  cases n with
  | zero => exact h.mono hsub
  | succ n =>
    rintro t ⟨⟩
    decide

theorem peek_other (hsep : sep ∈ [Token.bar, .lparen, .rparen, .semi, .amp]) (hne : ∀ after, ts ≠ sep :: after) :
    tokens.peek [sep.code] ts = .ok (false, ts) := by
  rcases peek_sep hsep ts with ⟨after, heq, -⟩ | ⟨-, hpeek⟩
  · exact absurd heq (hne after)
  · exact hpeek

theorem peek_same (hsep : sep ∈ [Token.bar, .lparen, .rparen, .semi, .amp]) :
    tokens.peek [sep.code] (sep :: ts) = .ok (true, sep :: ts) := by
  rcases peek_sep hsep (sep :: ts) with ⟨after, -, hpeek⟩ | ⟨hne, -⟩
  · exact hpeek
  · exact absurd rfl (hne ts)

/-- A simple command does not begin with a parenthesis. -/
theorem items_ne_lparen (items : List Item) (hrest : Ends (follow .exec) rest) (after : List Token) :
    items.flatMap Item.tokens ++ rest ≠ .lparen :: after := by
  cases items with
  | nil => exact hrest.ne (by decide) after
  | cons item items =>
    cases item with
    | word w =>
      intro h
      cases (List.cons.inj h).1
    | redir r =>
      intro h
      have hhead : r.op.token = .lparen := (List.cons.inj h).1
      cases hop : r.op <;> rw [hop] at hhead <;> cases hhead

/-- The parser takes what the grammar derives, whatever can come after it. -/
theorem parse_derives (hd : Derives nt pre t) (hrest : Ends (follow nt) rest)
    (hfuel : turns nt (pre ++ rest).length ≤ fuel) :
    parse nt fuel (pre ++ rest) = .ok (t, rest) := by
  induction hd generalizing rest fuel with
  | @line ts t n _ ih =>
    obtain ⟨fuel, rfl⟩ := Nat.exists_eq_add_of_le' ((Nat.le_add_left 1 _).trans hfuel)
    have hturns : turns .pipe (ts ++ (List.replicate n Token.amp ++ rest)).length ≤ fuel := by
      rw [← append_assoc]
      exact Nat.le_of_succ_le_succ hfuel
    have hpipe : parsepipe tokens fuel (ts ++ (List.replicate n Token.amp ++ rest)) = _ :=
      ih (hrest.replicate n (by decide)) hturns
    have hn : n < fuel := by
      have hlength : 4 * (ts ++ List.replicate n Token.amp ++ rest).length + 4 ≤ fuel + 1 := hfuel
      rw [length_append, length_append, List.length_replicate] at hlength
      omega
    have hbacks := @parsebacks_complete fuel rest t n (hrest.ne (by decide)) hn
    have hpeek := peek_other (by decide) (hrest.ne (by decide : Token.semi ∉ follow .line))
    rw [Token.code] at hpeek
    change parseline tokens (fuel + 1) (ts ++ List.replicate n Token.amp ++ rest) = _
    rw [parseline, append_assoc, hpipe, ok_bind]
    dsimp only
    rw [hbacks, ok_bind]
    rw [hpeek]
    rfl
  | @list ts ts' t t' n _ _ ih ih' =>
    obtain ⟨fuel, rfl⟩ := Nat.exists_eq_add_of_le' ((Nat.le_add_left 1 _).trans hfuel)
    have hassoc : ts ++ (List.replicate n Token.amp ++ Token.semi :: ts') ++ rest =
        ts ++ (List.replicate n Token.amp ++ Token.semi :: (ts' ++ rest)) := by simp
    rw [hassoc] at hfuel ⊢
    have hlength : 4 * (ts ++ (List.replicate n Token.amp ++ Token.semi :: (ts' ++ rest))).length + 4 ≤ fuel + 1 :=
      hfuel
    have hsemi : Ends [.semi] (.semi :: (ts' ++ rest)) := by
      rintro _ ⟨⟩
      exact List.mem_singleton_self _
    have hpipe : parsepipe tokens fuel _ = _ := ih (hsemi.replicate n (by decide)) (Nat.le_of_succ_le_succ hfuel)
    rw [length_append, length_append, List.length_replicate, length_cons] at hlength
    have hbacks := @parsebacks_complete fuel (.semi :: (ts' ++ rest)) t n (hsemi.ne (by decide)) (by omega)
    have hline : parseline tokens fuel (ts' ++ rest) = _ :=
      ih' hrest (by change 4 * (ts' ++ rest).length + 4 ≤ fuel; omega)
    have hpeek := @peek_same (ts' ++ rest) .semi (by decide)
    rw [Token.code] at hpeek
    change parseline tokens (fuel + 1) _ = _
    rw [parseline, hpipe, ok_bind]
    dsimp only
    rw [hbacks, ok_bind]
    rw [hpeek, ok_bind]
    simp only [if_true, gettoken_cons, ok_bind, hline]
  | @pipe ts t _ ih =>
    obtain ⟨fuel, rfl⟩ := Nat.exists_eq_add_of_le' ((Nat.le_add_left 1 _).trans hfuel)
    have hexec : parseexec tokens fuel (ts ++ rest) = _ := ih (hrest.mono (by decide)) (Nat.le_of_succ_le_succ hfuel)
    have hpeek := peek_other (by decide) (hrest.ne (by decide : Token.bar ∉ follow .pipe))
    rw [Token.code] at hpeek
    change parsepipe tokens (fuel + 1) (ts ++ rest) = _
    rw [parsepipe, hexec, ok_bind]
    dsimp only
    rw [hpeek]
    rfl
  | @bar ts ts' t t' _ _ ih ih' =>
    obtain ⟨fuel, rfl⟩ := Nat.exists_eq_add_of_le' ((Nat.le_add_left 1 _).trans hfuel)
    rw [append_assoc, cons_append] at hfuel ⊢
    have hlength : 4 * (ts ++ .bar :: (ts' ++ rest)).length + 3 ≤ fuel + 1 := hfuel
    have hbar : Ends (follow .exec) (.bar :: (ts' ++ rest)) := by
      rintro _ ⟨⟩
      decide
    have hexec : parseexec tokens fuel _ = _ := ih hbar (Nat.le_of_succ_le_succ hfuel)
    rw [length_append, length_cons] at hlength
    have hpipe : parsepipe tokens fuel (ts' ++ rest) = _ :=
      ih' hrest (by change 4 * (ts' ++ rest).length + 3 ≤ fuel; omega)
    have hpeek := @peek_same (ts' ++ rest) .bar (by decide)
    rw [Token.code] at hpeek
    change parsepipe tokens (fuel + 1) _ = _
    rw [parsepipe, hexec, ok_bind]
    dsimp only
    rw [hpeek, ok_bind]
    simp only [if_true, gettoken_cons, ok_bind, hpipe]
  | @block ts t rs _ ih =>
    obtain ⟨fuel, rfl⟩ := Nat.exists_eq_add_of_le' ((Nat.le_add_left 2 _).trans hfuel)
    have hassoc : .lparen :: (ts ++ .rparen :: rs.flatMap Redir.tokens) ++ rest =
        .lparen :: (ts ++ .rparen :: (rs.flatMap Redir.tokens ++ rest)) := by simp
    rw [hassoc] at hfuel ⊢
    have hlength :
        4 * (Token.lparen :: (ts ++ .rparen :: (rs.flatMap Redir.tokens ++ rest))).length + 2 ≤ fuel + 2 := hfuel
    rw [length_cons] at hlength
    have hrparen : Ends (follow .line) (.rparen :: (rs.flatMap Redir.tokens ++ rest)) := by
      rintro _ ⟨⟩
      decide
    have hline : parseline tokens fuel (ts ++ .rparen :: (rs.flatMap Redir.tokens ++ rest)) = _ :=
      ih hrparen (by change 4 * _ + 4 ≤ fuel; omega)
    have hcount : rs.length ≤ (rs.flatMap Redir.tokens).length := by
      rw [List.length_flatMap]
      have htwo : rs.map (fun r => r.tokens.length) = rs.map fun _ => 2 := rfl
      rw [htwo]
      simp
      omega
    rw [length_append, length_cons, length_append] at hlength
    have hredirs := @parseredirs_complete fuel rest t rs (hrest.peek_redir (by decide)) (by omega)
    have hopen := @peek_same (ts ++ .rparen :: (rs.flatMap Redir.tokens ++ rest)) .lparen (by decide)
    have hclose := @peek_same (rs.flatMap Redir.tokens ++ rest) .rparen (by decide)
    rw [Token.code] at hopen
    rw [Token.code] at hclose
    change parseexec tokens (fuel + 2) _ = _
    rw [parseexec, hopen, ok_bind]
    simp only [if_true]
    rw [parseblock, hopen, ok_bind]
    simp only [Bool.not_true, Bool.false_eq_true, if_false, gettoken_cons, ok_bind, hline, hclose, hredirs]
  | simple items hwords =>
    obtain ⟨fuel, rfl⟩ := Nat.exists_eq_add_of_le' ((Nat.le_add_left 1 _).trans hfuel)
    have hlength : 4 * (items.flatMap Item.tokens ++ rest).length + 2 ≤ fuel + 1 := hfuel
    rw [length_append] at hlength
    have hpeek := @peek_other _ .lparen (by decide) (items_ne_lparen items hrest)
    rw [Token.code] at hpeek
    change parseexec tokens (fuel + 1) _ = _
    rw [parseexec, hpeek, ok_bind]
    have hargs := @parseargs_complete fuel 0 rest (.exec []) items fuel hrest (by omega) (by omega) (by omega)
    rw [simple_eq] at hargs
    exact hargs

end Parse

end Xv6.Shell
