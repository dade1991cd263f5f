import Xv6.Shell.Grammar

/-!
# Command lines

`parsecmd` returns the tree that the grammar derives from the tokens of a line, with the words of the line as its
strings, and panics when there is none. A tree printed as tokens, and laid out with any white space that keeps them
apart, is a line for the same tree.
-/

namespace Xv6.Shell

open Lib
open List (mem_append forall_mem_nil forall_mem_cons mem_cons_self length_cons map_cons append_nil suffix_rfl)

/-- The words of a command. -/
def Cmd.words {W : Type} : Cmd W → List W
  | .exec argv => argv
  | .redir cmd file _ _ => cmd.words ++ [file]
  | .pipe left right => left.words ++ right.words
  | .list left right => left.words ++ right.words
  | .back cmd => cmd.words

attribute [local simp] Cmd.words

section Strings

variable {s buf : List UInt8} {p : ℕ × ℕ} {w : List UInt8}

/-- The buffer still has all the words of the line. -/
structure Keeps (s buf : List UInt8) : Prop where
  length_eq : buf.length = s.length + 1
  words : ∀ (k : ℕ) (c : UInt8), s[k]? = some c → isWord c = true → buf[k]? = some c

theorem Keeps.start (s : List UInt8) : Keeps s (s ++ [0]) := by
  refine ⟨List.length_append, fun k c hk _ => ?_⟩
  obtain ⟨hlt, -⟩ := List.getElem?_eq_some_iff.mp hk
  rw [List.getElem?_append_left hlt, hk]

/-- A NUL after a word is in no word. -/
theorem Keeps.set (hk : Keeps s buf) (hw : WordAt s p w) : Keeps s (buf.set p.2 0) := by
  refine ⟨by rw [List.length_set, hk.length_eq], fun k c hc hword => ?_⟩
  have hne : p.2 ≠ k := by
    intro heq
    have hstop := hw.stop c (by rw [List.head?_drop, heq]; exact hc)
    rw [hword] at hstop
    cases hstop
  rw [List.getElem?_set_ne hne]
  exact hk.words k c hc hword

/-- Where there is a NUL it stays, and there is one after the word. -/
theorem Keeps.set_zero (hk : Keeps s buf) (hw : WordAt s p w) :
    (∀ k : ℕ, buf[k]? = some 0 → (buf.set p.2 0)[k]? = some 0) ∧ (buf.set p.2 0)[p.2]? = some 0 := by
  have hlt : p.2 < buf.length := by
    have hle := hw.stop_le
    rw [hk.length_eq]
    omega
  have hself : (buf.set p.2 0)[p.2]? = some 0 := List.getElem?_set_self hlt
  refine ⟨fun k h => ?_, hself⟩
  by_cases heq : p.2 = k
  · exact heq ▸ hself
  · rw [List.getElem?_set_ne heq, h]

/-- What a command has ended: all its words, and whatever was ended before. -/
structure Ended (s : List UInt8) (ps : List (ℕ × ℕ)) (buf buf' : List UInt8) : Prop where
  keeps : Keeps s buf'
  zeros : ∀ k : ℕ, buf[k]? = some 0 → buf'[k]? = some 0
  stops : ∀ p ∈ ps, buf'[p.2]? = some 0

variable {ps : List (ℕ × ℕ)} {cmd : Cmd (ℕ × ℕ)} {V W : Type}

theorem Ended.trans {ps' : List (ℕ × ℕ)} {buf' buf'' : List UInt8} (h : Ended s ps buf buf')
    (h' : Ended s ps' buf' buf'') : Ended s (ps ++ ps') buf buf'' := by
  refine ⟨h'.keeps, fun k hk => h'.zeros k (h.zeros k hk), fun p hp => ?_⟩
  exact (mem_append.mp hp).elim (fun hp => h'.zeros _ (h.stops p hp)) (h'.stops p)

theorem Keeps.ended_word (hk : Keeps s buf) (hw : WordAt s p w) : Ended s [p] buf (buf.set p.2 0) := by
  obtain ⟨hzeros, hself⟩ := hk.set_zero hw
  refine ⟨hk.set hw, hzeros, fun q hq => ?_⟩
  rw [List.mem_singleton.mp hq]
  exact hself

theorem Keeps.ended_words (hk : Keeps s buf) (h : ∀ p ∈ ps, ∃ w, WordAt s p w) :
    Ended s ps buf (ps.foldl (fun buf arg => buf.set arg.2 0) buf) := by
  induction ps generalizing buf with
  | nil => exact ⟨hk, fun _ h => h, forall_mem_nil _⟩
  | cons p ps ih =>
    obtain ⟨⟨w, hw⟩, hps⟩ := forall_mem_cons.mp h
    have hfirst := hk.ended_word hw
    exact hfirst.trans (ih hfirst.keeps hps)

/-- Word after word, whatever the shape of the tree. -/
theorem nulterminate_eq (cmd : Cmd (ℕ × ℕ)) (buf : List UInt8) :
    nulterminate cmd buf = cmd.words.foldl (fun buf arg => buf.set arg.2 0) buf := by
  induction cmd generalizing buf with
  | exec argv => rfl
  | redir cmd file mode fd ih => simp [nulterminate, ih]
  | pipe left right ih ih' | list left right ih ih' => simp [nulterminate, ih, ih']
  | back cmd ih => exact ih buf

theorem nulterminate_ended (h : ∀ p ∈ cmd.words, ∃ w, WordAt s p w) :
    Ended s cmd.words (s ++ [0]) (nulterminate cmd (s ++ [0])) := by
  rw [nulterminate_eq]
  exact (Keeps.start s).ended_words h

theorem cstring_of_getElem {i : ℕ} {c : UInt8} (h : buf[i]? = some c) :
    cstring buf i = if c ≠ 0 then c :: cstring buf (i + 1) else [] := by
  obtain ⟨hlt, hget⟩ := List.getElem?_eq_some_iff.mp h
  rw [cstring, List.drop_eq_getElem_cons hlt, hget, List.takeWhile_cons]
  by_cases hc : c = 0
  · simp [hc]
  · simp [hc, cstring]

/-- A word that is ended is a string. -/
theorem cstring_word {i : ℕ} (hw : ∀ (m : ℕ) (c : UInt8), w[m]? = some c → buf[i + m]? = some c) (hnul : ∀ c ∈ w, c ≠ 0)
    (hend : buf[i + w.length]? = some 0) : cstring buf i = w := by
  induction w generalizing i with
  | nil =>
    have hend' : buf[i]? = some 0 := hend
    rw [cstring_of_getElem hend']
    rfl
  | cons c w ih =>
    have hfirst : buf[i]? = some c := hw 0 c rfl
    rw [cstring_of_getElem hfirst, if_pos (hnul c mem_cons_self)]
    congr 1
    refine ih (fun m d hd => ?_) (fun d hd => hnul d (List.mem_cons_of_mem c hd)) ?_
    · have hnext := hw (m + 1) d hd
      rwa [Nat.add_comm m 1, ← Nat.add_assoc] at hnext
    · rwa [length_cons, Nat.add_comm w.length 1, ← Nat.add_assoc] at hend

theorem Ended.cstring_eq {buf' : List UInt8} (h : Ended s ps buf buf') (hnul : (0 : UInt8) ∉ s) (hp : p ∈ ps)
    (hw : WordAt s p w) : cstring buf' p.1 = w := by
  have hchar : ∀ (m : ℕ) (c : UInt8), w[m]? = some c → s[p.1 + m]? = some c := fun m c hc => by
    obtain ⟨hlt, -⟩ := List.getElem?_eq_some_iff.mp hc
    rw [← List.getElem?_drop, hw.text, List.getElem?_append_left hlt, hc]
  refine cstring_word (fun m c hc => ?_) (fun c hc => ?_) ?_
  · exact h.keeps.words _ c (hchar m c hc) (hw.chars c (List.mem_of_getElem? hc))
  · rintro rfl
    obtain ⟨m, hm⟩ := List.mem_iff_getElem?.mp hc
    exact hnul (List.mem_of_getElem? (hchar m 0 hm))
  · rw [← hw.stop_eq]
    exact h.stops p hp

theorem Cmd.Matches.map_eq {M : W → V → Prop} {f : W → V} {c : Cmd W} {d : Cmd V} (hm : c.Matches M d)
    (hf : ∀ w v, w ∈ c.words → M w v → f w = v) : c.map f = d := by
  induction hm with
  | exec h =>
    rw [Cmd.map]
    congr 1
    induction h with
    | nil => rfl
    | @cons w v ws vs hwv _ ih =>
      rw [map_cons, hf w v mem_cons_self hwv]
      congr 1
      exact ih fun w' v' hw' => hf w' v' (List.mem_cons_of_mem w hw')
  | redir _ hfile ih =>
    rw [Cmd.map, ih fun w v hw => hf w v (List.mem_append_left _ hw),
      hf _ _ (List.mem_append_right _ mem_cons_self) hfile]
  | pipe _ _ ih ih' | list _ _ ih ih' =>
    rw [Cmd.map, ih fun w v hw => hf w v (List.mem_append_left _ hw),
      ih' fun w v hw => hf w v (List.mem_append_right _ hw)]
  | back _ ih => rw [Cmd.map, ih hf]

theorem Cmd.Matches.exists {M : W → V → Prop} {c : Cmd W} {d : Cmd V} (hm : c.Matches M d) :
    ∀ w ∈ c.words, ∃ v, M w v := by
  induction hm with
  | exec h =>
    induction h with
    | nil => exact forall_mem_nil _
    | cons hwv _ ih => exact forall_mem_cons.mpr ⟨⟨_, hwv⟩, ih⟩
  | redir _ hfile ih => exact List.forall_mem_append.mpr ⟨ih, List.forall_mem_singleton.mpr ⟨_, hfile⟩⟩
  | pipe _ _ ih ih' | list _ _ ih ih' => exact List.forall_mem_append.mpr ⟨ih, ih'⟩
  | back _ ih => exact ih

/-- The strings that the parser leaves are the words of the line. -/
theorem strings_eq {t : Tree} (hnul : (0 : UInt8) ∉ s) (hm : cmd.Matches (WordAt s) t) :
    strings (nulterminate cmd (s ++ [0])) cmd = t :=
  hm.map_eq fun _ _ hp hw => (nulterminate_ended hm.exists).cstring_eq hnul hp hw

end Strings

section Parsecmd

variable {s : List UInt8} {fuel : ℕ} {t : Tree}

theorem lex_length_le (line : List UInt8) : (lex line).length ≤ line.length := by
  fun_induction lex line with
  | case1 => exact Nat.zero_le _
  | case2 line c rest h ih =>
    have hwhite := (List.dropWhile_suffix (l := line) isWhite).length_le
    have hfirst := firstToken_length_le c rest
    rw [h, length_cons] at hwhite
    rw [length_cons]
    omega

theorem peek_eq {toks : List UInt8} {i j : ℕ} {c : UInt8} (hskip : skip s isWhite (s.length - i) i = .ok j)
    (hderef : deref s j = .ok c) : peek s toks i = .ok (c ≠ 0 && toks.contains c, j) := by
  simp only [peek, hskip, hderef, ok_bind]

/-- After the line nothing may be left. -/
theorem parsecmd_eq {c : Cmd (ℕ × ℕ)} {i : ℕ} (hline : parseline (buffer s) fuel 0 = .ok (c, i)) (hi : i ≤ s.length) :
    parsecmd fuel s = if lex (s.drop i) = [] then .ok (c, nulterminate c (s ++ [0])) else .error (.panic "syntax") := by
  obtain ⟨j, hskip, hj, hdrop⟩ := skip_white hi
  rw [parsecmd, hline, ok_bind]
  dsimp only
  cases hc : s.drop j with
  | nil =>
    have hjs : j = s.length := Nat.le_antisymm hj (List.drop_eq_nil_iff.mp hc)
    rw [peek_eq hskip (hjs ▸ deref_length s), ok_bind, if_pos (lex_of_nil (hdrop.symm.trans hc))]
    rw [if_neg (not_not_intro hjs)]
  | cons d rest =>
    have hjs : j ≠ s.length := Nat.ne_of_lt (length_of_drop hc).1
    rw [peek_eq hskip (deref_of_drop hc), ok_bind, lex_of_cons (hdrop.symm.trans hc), if_neg (List.cons_ne_nil _ _)]
    rw [if_pos hjs]

theorem turns_le (hfuel : 4 * s.length + 4 ≤ fuel) : turns .line (lex s).length ≤ fuel := by
  have hle := lex_length_le s
  change 4 * (lex s).length + 4 ≤ fuel
  omega

/-- The parser of the shell has the outcome of the parser of tokens. -/
theorem parsecmd_outcome (hnul : (0 : UInt8) ∉ s) (hfuel : 4 * s.length + 4 ≤ fuel) :
    (∃ t c buf, Derives .line (lex s) t ∧ parsecmd fuel s = .ok (c, buf) ∧ strings buf c = t) ∨
      (∀ t, ¬Derives .line (lex s) t) ∧ ∃ message, parsecmd fuel s = .error (.panic message) := by
  have hderives : ∀ t, Derives .line (lex s) t → parseline tokens fuel (lex s) = .ok (t, []) := fun t hd => by
    have hparse :=
      @parse_derives fuel (lex s) [] t .line hd (fun _ h => by cases h) (by rw [append_nil]; exact turns_le hfuel)
    rwa [append_nil] at hparse
  have hat : At s 0 (lex s) := ⟨Nat.zero_le _, by rw [List.drop_zero]⟩
  have hsame := ((buffer_simulates hnul).parse fuel).1 hat
  have houtcome : Outcome .line (lex s) (parseline tokens fuel (lex s)) := parse_outcome .line (turns_le hfuel)
  generalize parseline tokens fuel (lex s) = y at hsame houtcome hderives
  generalize hx : parseline (buffer s) fuel 0 = x at hsame
  cases houtcome with
  | panic message =>
    cases hsame
    refine .inr ⟨fun t hd => (nomatch hderives t hd), message, ?_⟩
    rw [parsecmd, hx]
    rfl
  | @ok t pre rest hts hd =>
    cases hsame with
    | @ok c _ i _ hm hi =>
      obtain ⟨hle, rfl⟩ : At s i rest := hi
      rw [parsecmd_eq hx hle]
      by_cases hend : lex (s.drop i) = []
      · rw [if_pos hend]
        rw [hend, append_nil] at hts
        exact .inl ⟨t, c, _, hts ▸ hd, rfl, strings_eq hnul hm⟩
      · rw [if_neg hend]
        refine .inr ⟨fun t' hd' => ?_, _, rfl⟩
        exact hend (Prod.mk.inj (Except.ok.inj (hderives t' hd'))).2

end Parsecmd

section Print

/-- In parentheses where the place asks for them. -/
def enclose (needed : Bool) (ts : List Token) : List Token := if needed then .lparen :: (ts ++ [.rparen]) else ts

/-- A command as tokens, for a place that takes a word or a block (0), pipelines as well (1), `&` as well (2), or any
line (3). -/
def print : Tree → ℕ → List Token
  | .exec argv, _ => argv.map .word
  | .redir cmd file _ fd, _ => print cmd 0 ++ [if fd = 0 then .lt else .gt, .word file]
  | .pipe left right, place => enclose (place < 1) (print left 0 ++ .bar :: print right 1)
  | .back cmd, place => enclose (place < 2) (print cmd 2 ++ [.amp])
  | .list left right, place => enclose (place < 3) (print left 2 ++ .semi :: print right 3)

/-- The trees that the parser can build. -/
def Printable : Tree → Prop
  | .exec argv => argv.length ≤ MAXARGS - 1
  | .redir cmd _ mode fd => Printable cmd ∧ ∃ op : Op, mode = op.mode ∧ fd = op.fd
  | .pipe left right => Printable left ∧ Printable right
  | .list left right => Printable left ∧ Printable right
  | .back cmd => Printable cmd

variable {ts ts' : List Token} {t t' : Tree} {nt : Nonterminal}

theorem printable_wrap (rs : List Redir) (h : Printable t) : Printable (rs.foldl Redir.wrap t) := by
  induction rs generalizing t with
  | nil => exact h
  | cons r rs ih => exact ih ⟨h, r.op, rfl, rfl⟩

theorem printable_backs (n : ℕ) (h : Printable t) : Printable (Cmd.back^[n] t) := by
  induction n generalizing t with
  | zero => exact h
  | succ n ih => exact @ih (.back t) h

theorem Derives.printable (h : Derives nt ts t) : Printable t := by
  induction h with
  | line n _ ih => exact printable_backs n ih
  | list n _ _ ih ih' => exact ⟨printable_backs n ih, ih'⟩
  | pipe _ ih => exact ih
  | bar _ _ ih ih' => exact ⟨ih, ih'⟩
  | block rs _ ih => exact printable_wrap rs ih
  | simple items h => exact printable_wrap _ h

/-- A line in parentheses. -/
theorem Derives.enclosed (h : Derives .line ts t) : Derives .exec (.lparen :: (ts ++ [.rparen])) t := .block [] h

/-- A redirection after what can have one. -/
theorem Derives.redir (h : Derives .exec ts t) (r : Redir) : Derives .exec (ts ++ r.tokens) (r.wrap t) := by
  cases h with
  | @block ts t rs h =>
    have hblock : Derives .exec _ _ := .block (rs ++ [r]) h
    have htokens : .lparen :: (ts ++ .rparen :: rs.flatMap Redir.tokens) ++ r.tokens =
        .lparen :: (ts ++ .rparen :: (rs ++ [r]).flatMap Redir.tokens) := by simp
    rw [htokens]
    rwa [List.foldl_append] at hblock
  | simple items hwords =>
    have hcount : words (items ++ [.redir r]) = words items := by simp [words]
    have hsimple : Derives .exec _ _ := .simple (items ++ [.redir r]) (by rw [hcount]; exact hwords)
    have htokens : items.flatMap Item.tokens ++ r.tokens = (items ++ [Item.redir r]).flatMap Item.tokens := by
      simp [Item.tokens]
    have htree : Shell.simple (items ++ [.redir r]) = r.wrap (Shell.simple items) := by
      rw [← simple_eq, ← simple_eq, List.foldl_append]
      rfl
    rw [htokens, ← htree]
    exact hsimple

/-- A pipeline with any number of `&` after it. -/
def Backs (ts : List Token) (t : Tree) : Prop :=
  ∃ n ts' t', ts = ts' ++ List.replicate n .amp ∧ t = Cmd.back^[n] t' ∧ Derives .pipe ts' t'

theorem Backs.of_pipe (h : Derives .pipe ts t) : Backs ts t := ⟨0, ts, t, (append_nil ts).symm, rfl, h⟩

theorem Backs.line (h : Backs ts t) : Derives .line ts t := by
  obtain ⟨n, ts, t, rfl, rfl, h⟩ := h
  exact .line n h

theorem Backs.back (h : Backs ts t) : Backs (ts ++ [.amp]) (.back t) := by
  obtain ⟨n, ts, t, rfl, rfl, h⟩ := h
  refine ⟨n + 1, ts, t, ?_, (Function.iterate_succ_apply' ..).symm, h⟩
  rw [List.replicate_succ', List.append_assoc]

theorem Backs.list (h : Backs ts t) (h' : Derives .line ts' t') : Derives .line (ts ++ .semi :: ts') (.list t t') := by
  obtain ⟨n, ts, t, rfl, rfl, h⟩ := h
  rw [List.append_assoc]
  exact .list n h h'

/-- What is printed for a place derives the tree there. -/
structure Prints (t : Tree) : Prop where
  exec : Derives .exec (print t 0) t
  pipe : Derives .pipe (print t 1) t
  backs : Backs (print t 2) t
  line : Derives .line (print t 3) t

theorem Printable.prints (h : Printable t) : Prints t := by
  induction t with
  | exec argv =>
    have hwords : words (argv.map .word) = argv := by simp [words, List.filterMap_map]
    have hredirs : redirs (argv.map .word) = [] := by simp [redirs, List.filterMap_map]
    have htokens : (argv.map Item.word).flatMap Item.tokens = argv.map .word := by
      rw [List.flatMap_map]
      exact List.map_eq_flatMap.symm
    have hexec : Derives .exec _ _ := .simple (argv.map .word) (by rw [hwords]; exact h)
    rw [simple, hredirs, hwords, htokens] at hexec
    exact ⟨hexec, .pipe hexec, .of_pipe (.pipe hexec), (Backs.of_pipe (.pipe hexec)).line⟩
  | redir cmd file mode fd ih =>
    obtain ⟨hcmd, op, rfl, rfl⟩ := h
    have hexec : Derives .exec (print cmd 0 ++ [if op.fd = 0 then .lt else .gt, .word file])
        (.redir cmd file op.mode op.fd) := by
      cases op with
      | lt => exact (ih hcmd).exec.redir ⟨.lt, file⟩
      | gt | gtgt => exact (ih hcmd).exec.redir ⟨.gt, file⟩
    exact ⟨hexec, .pipe hexec, .of_pipe (.pipe hexec), (Backs.of_pipe (.pipe hexec)).line⟩
  | pipe left right ih ih' =>
    have hpipe : Derives .pipe _ _ := .bar (ih h.1).exec (ih' h.2).pipe
    have hline := (Backs.of_pipe hpipe).line
    exact ⟨hline.enclosed, hpipe, .of_pipe hpipe, hline⟩
  | list left right ih ih' =>
    have hline := (ih h.1).backs.list (ih' h.2).line
    exact ⟨hline.enclosed, .pipe hline.enclosed, .of_pipe (.pipe hline.enclosed), hline⟩
  | back cmd ih =>
    have hbacks := (ih h).backs.back
    exact ⟨hbacks.line.enclosed, .pipe hbacks.line.enclosed, hbacks, hbacks.line⟩

end Print

section Layout

/-- A token as it can be written: the characters of a word are those of words. -/
def Token.Written : Token → Prop
  | .word w => w ≠ [] ∧ ∀ c ∈ w, isWord c = true ∧ c ≠ 0
  | _ => True

/-- What follows does not run into the token: no word into a word, and no `>` into a `>`. -/
def Token.Apart : Token → List UInt8 → Prop
  | .word _, line => ∀ c ∈ line.head?, isWord c = false
  | .gt, line => ∀ c ∈ line.head?, c ≠ '>'.toUInt8
  | _, _ => True

/-- A line with the tokens, and any white space that keeps them apart. -/
inductive Layout : List Token → List UInt8 → Prop
  | nil {ws : List UInt8} (hws : ∀ c ∈ ws, isWhite c = true) : Layout [] ws
  | cons {ws line : List UInt8} {t : Token} {ts : List Token} (hws : ∀ c ∈ ws, isWhite c = true) (ht : t.Written)
      (hapart : t.Apart line) (h : Layout ts line) : Layout (t :: ts) (ws ++ (t.text ++ line))

variable {line : List UInt8} {t : Token} {ts : List Token} {c : UInt8}

theorem isWord_iff : isWord c = true ↔ isWhite c = false ∧ symbols.contains c = false := by
  simp [isWord, isWhite]

theorem symbolToken_of_isWord (h : isWord c = true) : symbolToken c = none ∧ c ≠ '>'.toUInt8 := by
  have hnot := (isWord_iff.mp h).2
  constructor
  · cases hsym : symbolToken c with
    | none => rfl
    | some t =>
      obtain ⟨-, -, -, hany⟩ := symbolToken_code hsym
      rcases hany with rfl | rfl | rfl | rfl | rfl | rfl <;> cases hnot
  · rintro rfl
    cases hnot

/-- A token that is written is the first of a line that begins with it. -/
theorem firstToken_written (ht : t.Written) (hapart : t.Apart line) :
    ∃ c rest, t.text ++ line = c :: rest ∧ isWhite c = false ∧ firstToken c rest = (t, line) := by
  cases t with
  | word w =>
    obtain ⟨hne, hchars⟩ := ht
    cases w with
    | nil => exact absurd rfl hne
    | cons c w =>
      obtain ⟨hc, hrest⟩ := forall_mem_cons.mp hchars
      obtain ⟨hsym, hgt⟩ := symbolToken_of_isWord hc.1
      have hall : ∀ d ∈ w, isWord d = true := fun d hd => (hrest d hd).1
      refine ⟨c, w ++ line, rfl, (isWord_iff.mp hc.1).1, ?_⟩
      rw [firstToken_word hsym hgt, List.takeWhile_append_of_pos hall, List.dropWhile_append_of_pos hall]
      cases line with
      | nil => simp
      | cons d line =>
        have hd : ¬isWord d = true := by
          rw [hapart d rfl]
          exact Bool.false_ne_true
        rw [List.takeWhile_cons_of_neg hd, List.dropWhile_cons_of_neg hd, append_nil]
  | gt =>
    refine ⟨'>'.toUInt8, line, rfl, rfl, ?_⟩
    cases line with
    | nil => rfl
    | cons d line => exact firstToken_gt (hapart d rfl)
  | gtgt => exact ⟨'>'.toUInt8, '>'.toUInt8 :: line, rfl, rfl, rfl⟩
  | bar | lparen | rparen | semi | amp | lt => exact ⟨_, line, rfl, rfl, rfl⟩

/-- The tokens of a layout are those that were laid out. -/
theorem Layout.lex_eq (h : Layout ts line) : lex line = ts := by
  induction h with
  | nil hws => exact lex_of_nil (List.dropWhile_eq_nil_iff.mpr hws)
  | @cons ws line t ts hws ht hapart _ ih =>
    obtain ⟨c, rest, htext, hwhite, hfirst⟩ := firstToken_written ht hapart
    have hdrop : (ws ++ (t.text ++ line)).dropWhile isWhite = c :: rest := by
      have hneg : ¬isWhite c = true := by
        rw [hwhite]
        exact Bool.false_ne_true
      rw [List.dropWhile_append_of_pos hws, htext, List.dropWhile_cons_of_neg hneg]
    rw [lex_of_cons hdrop, hfirst, ih]

theorem Layout.nul_notMem (h : Layout ts line) : (0 : UInt8) ∉ line := by
  induction h with
  | nil hws =>
    intro hin
    have h0 := hws 0 hin
    cases h0
  | @cons ws line t ts hws ht _ _ ih =>
    intro hin
    rcases mem_append.mp hin with hin | hin
    · have h0 := hws 0 hin
      cases h0
    rcases mem_append.mp hin with hin | hin
    · cases t with
      | word w => exact (ht.2 0 hin).2 rfl
      | _ => exact absurd hin (by decide)
    · exact ih hin

/-- The first token of a line can be written, and the rest is of the line. -/
theorem firstToken_of_line {rest : List UInt8} (hwhite : isWhite c = false) (hnul : ∀ d ∈ c :: rest, d ≠ 0) :
    (firstToken c rest).1.Written ∧ (firstToken c rest).2 <:+ rest := by
  cases hsym : symbolToken c with
  | some t =>
    rw [firstToken_symbol hsym]
    refine ⟨?_, suffix_rfl⟩
    cases t with
    | word w => exact absurd hsym symbolToken_ne_word
    | _ => exact trivial
  | none =>
    by_cases hgt : c = '>'.toUInt8
    · subst hgt
      cases rest with
      | nil => exact ⟨trivial, suffix_rfl⟩
      | cons d rest =>
        by_cases hd : d = '>'.toUInt8
        · subst hd
          exact ⟨trivial, List.suffix_cons _ _⟩
        · rw [firstToken_gt hd]
          exact ⟨trivial, suffix_rfl⟩
    · rw [firstToken_word hsym hgt]
      obtain ⟨hc, hrest⟩ := forall_mem_cons.mp hnul
      refine ⟨⟨List.cons_ne_nil _ _, forall_mem_cons.mpr ⟨⟨isWord_of_none hwhite hsym hgt, hc⟩, fun d hd => ?_⟩⟩,
        List.dropWhile_suffix isWord⟩
      exact ⟨List.mem_takeWhile_imp hd, hrest d ((List.takeWhile_prefix isWord).subset hd)⟩

/-- The tokens of a line can be written. -/
theorem lex_written (hnul : (0 : UInt8) ∉ line) : ∀ t ∈ lex line, t.Written := by
  fun_induction lex line with
  | case1 => exact forall_mem_nil _
  | case2 line c rest h ih =>
    have hsuffix := List.dropWhile_suffix (l := line) isWhite
    rw [h] at hsuffix
    obtain ⟨hwritten, hrest⟩ :=
      firstToken_of_line (not_white_of_dropWhile h) fun d hd heq => hnul (heq ▸ hsuffix.subset hd)
    exact forall_mem_cons.mpr ⟨hwritten, ih fun h0 => hnul (hsuffix.subset (List.mem_cons_of_mem c (hrest.subset h0)))⟩

/-- A blank before every token. -/
def spaced (ts : List Token) : List UInt8 := ts.flatMap fun t => 0x20 :: t.text

theorem Layout.spaced (h : ∀ t ∈ ts, t.Written) : Layout ts (spaced ts) := by
  induction ts with
  | nil => exact .nil (forall_mem_nil _)
  | cons t ts ih =>
    obtain ⟨ht, hts⟩ := forall_mem_cons.mp h
    have hblank : ∀ c ∈ [(0x20 : UInt8)], isWhite c = true := List.forall_mem_singleton.mpr (by decide)
    refine .cons hblank ht ?_ (ih hts)
    have hhead : ∀ c ∈ (Shell.spaced ts).head?, c = 0x20 := by
      cases ts with
      | nil =>
        rintro c ⟨⟩
      | cons t' ts =>
        rintro c ⟨⟩
        rfl
    cases t with
    | word w | gt =>
      intro c hc
      rw [hhead c hc]
      decide
    | _ => exact trivial

end Layout

section Words

variable {ts : List Token} {t : Tree} {nt : Nonterminal} {w : List UInt8}

/-- The words among the tokens. -/
def wordsOf (ts : List Token) : List (List UInt8) :=
  ts.filterMap fun
    | .word w => some w
    | _ => none

theorem words_wrap (rs : List Redir) : (rs.foldl Redir.wrap t).words = t.words ++ rs.map Redir.file := by
  induction rs generalizing t with
  | nil => simp
  | cons r rs ih =>
    rw [List.foldl_cons, ih]
    simp [Redir.wrap]

theorem words_backs (n : ℕ) : (Cmd.back^[n] t).words = t.words := by
  induction n generalizing t with
  | zero => rfl
  | succ n ih => exact @ih (.back t)

theorem wordsOf_redirs (rs : List Redir) : wordsOf (rs.flatMap Redir.tokens) = rs.map Redir.file := by
  induction rs with
  | nil => rfl
  | cons r rs ih =>
    obtain ⟨op, file⟩ := r
    rw [map_cons, ← ih]
    cases op <;> rfl

/-- Words and redirections in any order. -/
theorem wordsOf_items (items : List Item) :
    (words items ++ (redirs items).map Redir.file).Perm (wordsOf (items.flatMap Item.tokens)) := by
  induction items with
  | nil => exact .nil
  | cons item items ih =>
    cases item with
    | word w => exact ih.cons w
    | redir r =>
      obtain ⟨op, file⟩ := r
      have hmiddle : (words items ++ file :: (redirs items).map Redir.file).Perm _ := List.perm_middle
      cases op <;> exact hmiddle.trans (ih.cons file)

/-- The words of a tree are those of the tokens that derive it. -/
theorem Derives.words_perm (h : Derives nt ts t) : t.words.Perm (wordsOf ts) := by
  induction h with
  | line n _ ih => simpa [words_backs, wordsOf] using ih
  | list n _ _ ih ih' => simpa [words_backs, wordsOf] using ih.append ih'
  | pipe _ ih => exact ih
  | bar _ _ ih ih' => simpa [wordsOf] using ih.append ih'
  | @block ts t rs _ ih =>
    have hwords :
        wordsOf (.lparen :: (ts ++ .rparen :: rs.flatMap Redir.tokens)) = wordsOf ts ++ rs.map Redir.file := by
      rw [← wordsOf_redirs]
      simp [wordsOf]
    rw [words_wrap, hwords]
    exact ih.append_right _
  | simple items _ =>
    rw [Shell.simple, words_wrap]
    exact wordsOf_items items

/-- Only words depend on how they are written. -/
theorem written_iff : (∀ tok ∈ ts, tok.Written) ↔ ∀ w ∈ wordsOf ts, (Token.word w).Written := by
  constructor
  · intro h w hw
    obtain ⟨tok, htok, heq⟩ := List.mem_filterMap.mp hw
    cases tok with
    | word w' =>
      cases heq
      exact h _ htok
    | _ => cases heq
  · intro h tok htok
    cases tok with
    | word w => exact h w (List.mem_filterMap.mpr ⟨_, htok, rfl⟩)
    | _ => exact trivial

/-- If one list of tokens for a tree can be written, so can any other. -/
theorem Derives.written {ts' : List Token} {nt' : Nonterminal} (h : Derives nt ts t) (h' : Derives nt' ts' t)
    (hts : ∀ tok ∈ ts, tok.Written) : ∀ tok ∈ ts', tok.Written := by
  refine written_iff.mpr fun w hw => written_iff.mp hts w ?_
  exact h.words_perm.mem_iff.mp (h'.words_perm.mem_iff.mpr hw)

end Words

/-- The parser returns the tree for the line. -/
def Parses (fuel : ℕ) (s : List UInt8) (t : Tree) : Prop := ∃ c buf, parsecmd fuel s = .ok (c, buf) ∧ strings buf c = t

theorem parses_iff {fuel : ℕ} {s : List UInt8} {t : Tree} (hnul : (0 : UInt8) ∉ s) (hfuel : 4 * s.length + 4 ≤ fuel) :
    Parses fuel s t ↔ Derives .line (lex s) t := by
  -- what the grammar derives, the parser of tokens returns, so there is one tree
  have hunique : ∀ t t', Derives .line (lex s) t → Derives .line (lex s) t' → t = t' := fun t t' h h' => by
    have hend : Ends (follow .line) [] := fun _ h => by cases h
    have hparse := parse_derives h hend le_rfl
    rw [parse_derives h' hend le_rfl] at hparse
    cases hparse
    rfl
  rcases parsecmd_outcome hnul hfuel with ⟨t', c, buf, hd, heq, hstrings⟩ | ⟨hnone, message, heq⟩
  · constructor
    · rintro ⟨c', buf', heq', rfl⟩
      rw [heq] at heq'
      cases heq'
      exact hstrings ▸ hd
    · intro h
      exact ⟨c, buf, heq, hstrings.trans (hunique t' t hd h)⟩
  · constructor
    · rintro ⟨c', buf', heq', -⟩
      rw [heq] at heq'
      cases heq'
    · exact fun h => absurd h (hnone t)

/-- The parser accepts its grammar: with enough turns it returns a tree if and only if the tokens of the line derive it,
and panics otherwise. The tree printed and laid out with white space, or any other tokens that derive it, is a line for
it. -/
theorem parsecmd_accepts_grammar (s : List UInt8) (hnul : (0 : UInt8) ∉ s) (fuel : ℕ)
    (hfuel : 4 * s.length + 4 ≤ fuel) :
    (∀ t, Parses fuel s t ↔ Derives .line (lex s) t) ∧
    ((∃ t, Parses fuel s t) ∨ ∃ message, parsecmd fuel s = .error (.panic message)) ∧
    ∀ t, Derives .line (lex s) t → Derives .line (print t 3) t ∧ (∃ line, Layout (print t 3) line) ∧
      ∀ ts line fuel', Derives .line ts t → Layout ts line → 4 * line.length + 4 ≤ fuel' → Parses fuel' line t := by
  refine ⟨fun t => parses_iff hnul hfuel, ?_, fun t hd => ⟨hd.printable.prints.line, ?_, ?_⟩⟩
  · rcases parsecmd_outcome hnul hfuel with ⟨t, c, buf, -, heq, hstrings⟩ | ⟨-, hpanic⟩
    · exact .inl ⟨t, c, buf, heq, hstrings⟩
    · exact .inr hpanic
  · exact ⟨_, Layout.spaced (hd.written hd.printable.prints.line (lex_written hnul))⟩
  · intro ts line fuel' hts hlayout hfuel'
    refine (parses_iff hlayout.nul_notMem hfuel').mpr ?_
    rwa [hlayout.lex_eq]

/-- The line `a>b|(c;d)&` and its tree. -/
theorem parsecmd_accepts_grammar_block :
    ∃ t : Tree, t = .back (.pipe (.redir (.exec [[0x61]]) [0x62] (O_WRONLY ||| O_CREATE) 1)
        (.list (.exec [[0x63]]) (.exec [[0x64]]))) ∧
      Parses 44 [0x61, 0x3e, 0x62, 0x7c, 0x28, 0x63, 0x3b, 0x64, 0x29, 0x26] t ∧
      Derives .line (lex [0x61, 0x3e, 0x62, 0x7c, 0x28, 0x63, 0x3b, 0x64, 0x29, 0x26]) t ∧
      ∃ line, Layout (print t 3) line ∧ Parses (4 * line.length + 4) line t := by
  obtain ⟨⟨c, buf⟩, heq, hcheck⟩ :=
    @ok_of_check _ _ (parsecmd 44 [0x61, 0x3e, 0x62, 0x7c, 0x28, 0x63, 0x3b, 0x64, 0x29, 0x26])
    (fun r => decide (strings r.2 r.1 = .back (.pipe (.redir (.exec [[0x61]]) [0x62] (O_WRONLY ||| O_CREATE) 1)
      (.list (.exec [[0x63]]) (.exec [[0x64]]))))) (by decide +kernel)
  have hparses : Parses 44 _ _ := ⟨c, buf, heq, of_decide_eq_true hcheck⟩
  obtain ⟨hiff, -, hprint⟩ :=
    parsecmd_accepts_grammar [0x61, 0x3e, 0x62, 0x7c, 0x28, 0x63, 0x3b, 0x64, 0x29, 0x26] (by decide) 44
    (by decide)
  have hderives := (hiff _).mp hparses
  obtain ⟨hprinted, ⟨line, hlayout⟩, hagain⟩ := hprint _ hderives
  exact ⟨_, rfl, hparses, hderives, line, hlayout, hagain _ line _ hprinted hlayout le_rfl⟩

end Xv6.Shell
