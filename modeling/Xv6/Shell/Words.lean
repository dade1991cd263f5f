import Xv6.Shell.Lines

/-!
# The words of a command line

`nulterminate` cuts the buffer of the line into the words of the command. To tell words apart that are written alike,
each is replaced by a mark, and the parser is run on the marked tokens as well: it returns a command of the same shape,
so every word of the line is in one place of the command.
-/

namespace Xv6.Shell

open Lib

section Marked

variable {s v w : List UInt8} {p : ℕ × ℕ} {ts ts' : List Token}

/-- What a word is replaced by, from the tokens that come after it. -/
def mark (ts : List Token) : List UInt8 := List.replicate ts.length 0

/-- The tokens with their words told apart. -/
def marked : List Token → List Token
  | [] => []
  | .word _ :: ts => .word (mark ts) :: marked ts
  | t :: ts => t :: marked ts

theorem marked_length : (marked ts).length = ts.length := by
  fun_induction marked <;> simp_all

theorem length_lt_of_mem (h : w ∈ wordsOf (marked ts)) : w.length < ts.length := by
  fun_induction marked <;> grind [wordsOf, mark]

theorem nodup_marked (ts : List Token) : (wordsOf (marked ts)).Nodup := by
  fun_induction marked with
  | case1 => exact List.nodup_nil
  | case2 w ts ih => exact List.nodup_cons.mpr ⟨fun hmem => by simpa [mark] using length_lt_of_mem hmem, ih⟩
  | case3 t ts ht ih =>
    cases t with
    | word w => exact absurd rfl (ht w)
    | _ => exact ih

theorem mark_mem (h : .word w :: ts' <:+ ts) : mark ts' ∈ wordsOf (marked ts) := by
  obtain ⟨pre, rfl⟩ := h
  induction pre with
  | nil => exact List.mem_cons_self
  | cons t pre ih => cases t <;> simp_all [marked, wordsOf]

theorem peek_marked {toks : List UInt8} {found : Bool} (h : tokens.peek toks ts = .ok (found, ts')) :
    ts' = ts ∧ tokens.peek toks (marked ts) = .ok (found, marked ts) := by
  cases ts with
  | nil =>
    cases h
    exact ⟨rfl, rfl⟩
  | cons t ts => cases t <;> cases h <;> exact ⟨rfl, rfl⟩

/-- A word of the line: the tokens of the line end with it and those from its end on. -/
structure InputWord (s : List UInt8) (p : ℕ × ℕ) (w : List UInt8) : Prop extends WordAt s p w where
  tokens : .word w :: lex (s.drop p.2) <:+ lex s

/-- The tokens from the cursor on, with their words told apart. -/
def MarkedAt (s : List UInt8) (i : ℕ) (ts : List Token) : Prop := ∃ ts₀, At s i ts₀ ∧ ts₀ <:+ lex s ∧ ts = marked ts₀

/-- The mark is that of a word of the line. -/
def MarkOf (s : List UInt8) (p : ℕ × ℕ) (v : List UInt8) : Prop := (∃ w, InputWord s p w) ∧ mark (lex (s.drop p.2)) = v

theorem buffer_simulates_marked (hnul : (0 : UInt8) ∉ s) : (buffer s).Simulates tokens (MarkedAt s) (MarkOf s) := by
  constructor
  · rintro i _ ⟨ts, hat, hsuffix, rfl⟩
    obtain ⟨code, p, k, v, ts', hget, htokens, hat', hword⟩ := gettoken_at hnul hat
    cases ts with
    | nil =>
      cases htokens
      exact ⟨0, p, k, [], [], hget, rfl, ⟨[], hat', List.nil_suffix, rfl⟩, fun h => absurd h (by decide)⟩
    | cons t ts =>
      have hrest : MarkedAt s k (marked ts) := by
        cases htokens
        exact ⟨_, hat', (List.suffix_cons t _).trans hsuffix, rfl⟩
      cases t with
      | word w =>
        cases htokens
        obtain ⟨hwordAt, heq⟩ := hword rfl
        obtain ⟨-, rfl⟩ := List.cons.inj heq
        exact ⟨_, p, k, _, _, hget, rfl, hrest, fun _ => ⟨⟨w, hwordAt, hsuffix⟩, rfl⟩⟩
      | _ =>
        cases htokens
        exact ⟨_, p, k, _, _, hget, rfl, hrest, fun h => absurd h (by decide)⟩
  · rintro i _ toks ⟨ts, hat, hsuffix, rfl⟩ htoks
    obtain ⟨found, k, ts', hpeek, htokens, hat'⟩ := (buffer_simulates hnul).peek hat htoks
    obtain ⟨rfl, hmarked⟩ := peek_marked htokens
    exact ⟨found, k, _, hpeek, hmarked, ts', hat', hsuffix, rfl⟩

end Marked

/-- The arguments of each `EXEC` node. -/
def Cmd.execs {W : Type} : Cmd W → List (List W)
  | .exec argv => [argv]
  | .redir cmd _ _ _ => cmd.execs
  | .pipe left right => left.execs ++ right.execs
  | .list left right => left.execs ++ right.execs
  | .back cmd => cmd.execs

section Map

variable {V W : Type} (f : V → W) (c : Cmd V)

theorem Cmd.words_map : (c.map f).words = c.words.map f := by
  induction c <;> simp_all [Cmd.map, Cmd.words]

theorem Cmd.execs_map : (c.map f).execs = c.execs.map (List.map f) := by
  induction c <;> simp_all [Cmd.map, Cmd.execs]

end Map

theorem Printable.length_lt {t : Tree} (h : Printable t) : ∀ argv ∈ t.execs, argv.length < MAXARGS := by
  induction t with
  | exec argv => exact List.forall_mem_singleton.mpr (Nat.lt_succ_of_le h)
  | redir cmd file mode fd ih => exact ih h.1
  | pipe left right ih ih' | list left right ih ih' => exact List.forall_mem_append.mpr ⟨ih h.1, ih' h.2⟩
  | back cmd ih => exact ih h

/-- What the parser returns is a tree for the marked tokens, and the buffer is cut after each of its words. -/
theorem parsecmd_marked {s buf : List UInt8} {fuel : ℕ} {cmd : Cmd (ℕ × ℕ)} (hnul : (0 : UInt8) ∉ s)
    (hfuel : 4 * s.length + 4 ≤ fuel) (h : parsecmd fuel s = .ok (cmd, buf)) :
    ∃ t, cmd.Matches (MarkOf s) t ∧ Derives .line (marked (lex s)) t ∧ buf = nulterminate cmd (s ++ [0]) := by
  obtain ⟨⟨c, i⟩, hline, -⟩ := bind_eq_ok.mp h
  have hstart : MarkedAt s 0 (marked (lex s)) := ⟨lex s, ⟨Nat.zero_le _, rfl⟩, List.suffix_rfl, rfl⟩
  have hsame := ((buffer_simulates_marked hnul).parse fuel).1 hstart
  have houtcome : Outcome .line (marked (lex s)) (parseline tokens fuel (marked (lex s))) :=
    parse_outcome .line (by rw [marked_length]; exact turns_le hfuel)
  generalize parseline tokens fuel (marked (lex s)) = y at hsame houtcome
  rw [hline] at hsame
  cases hsame with
  | @ok _ t _ ts hm hi =>
    obtain ⟨_, ⟨hle, rfl⟩, -, rfl⟩ := hi
    rw [parsecmd_eq hline hle] at h
    split_ifs at h with hend
    cases h
    rw [hend] at houtcome
    cases houtcome with
    | ok hts hd =>
      rw [marked, List.append_nil] at hts
      exact ⟨t, hm, hts ▸ hd, rfl⟩

/-- `nulterminate` yields the parsed words. When the parser returns a command:
* each word of it is a word of the line, which the buffer has as a string;
* no character of a word is overwritten;
* every list of arguments leaves room for the null pointer that ends it;
* every word of the line is in one place of the command. -/
theorem nulterminate_yields_words (s : List UInt8) (hnul : (0 : UInt8) ∉ s) (fuel : ℕ) (hfuel : 4 * s.length + 4 ≤ fuel)
    (cmd : Cmd (ℕ × ℕ)) (buf : List UInt8) (h : parsecmd fuel s = .ok (cmd, buf)) :
    (∀ p ∈ cmd.words, ∃ w, InputWord s p w ∧ cstring buf p.1 = w) ∧
    (∀ (k : ℕ) (c : UInt8), s[k]? = some c → isWord c = true → buf[k]? = some c) ∧
    (∀ argv ∈ cmd.execs, argv.length < MAXARGS) ∧
    ∀ w ts, .word w :: ts <:+ lex s → ∃ p, InputWord s p w ∧ lex (s.drop p.2) = ts ∧ cmd.words.count p = 1 := by
  obtain ⟨t, hm, hd, rfl⟩ := parsecmd_marked hnul hfuel h
  have hinput : ∀ p ∈ cmd.words, ∃ w, InputWord s p w := fun p hp => (hm.exists p hp).elim fun _ hv => hv.1
  have hended := nulterminate_ended fun p hp => (hinput p hp).imp fun _ hw => hw.toWordAt
  have htree : cmd.map (fun p => mark (lex (s.drop p.2))) = t := hm.map_eq fun p v _ hv => hv.2
  have hwords := hd.words_perm
  rw [← htree, Cmd.words_map] at hwords
  refine ⟨fun p hp => ?_, hended.keeps.words, fun argv hargv => ?_, fun w ts hts => ?_⟩
  · obtain ⟨w, hw⟩ := hinput p hp
    exact ⟨w, hw, hended.cstring_eq hnul hp hw.toWordAt⟩
  · have hlength := hd.printable.length_lt (argv.map fun p => mark (lex (s.drop p.2))) (by
      rw [← htree, Cmd.execs_map]
      exact List.mem_map_of_mem hargv)
    rwa [List.length_map] at hlength
  · obtain ⟨p, hp, heq⟩ := List.mem_map.mp (hwords.mem_iff.mpr (mark_mem hts))
    obtain ⟨v, hv⟩ := hinput p hp
    have hlength : (lex (s.drop p.2)).length = ts.length := by simpa [mark] using congrArg List.length heq
    -- two ends of one list that are as long as each other
    have hsame := List.suffix_of_suffix_length_le hv.tokens hts (by simp [hlength])
    obtain ⟨hword, rfl⟩ := List.cons.inj (hsame.eq_of_length (by simp [hlength]))
    cases hword
    exact ⟨p, hv, rfl, List.count_eq_one_of_mem (List.Nodup.of_map _ (hwords.nodup_iff.mpr (nodup_marked _))) hp⟩

/-- In the line `a>b c` the file of the redirection is the word between the arguments. -/
theorem nulterminate_yields_words_redir : ∃ cmd buf, parsecmd 24 [0x61, 0x3e, 0x62, 0x20, 0x63] = .ok (cmd, buf) ∧
    cmd = .redir (.exec [(0, 1), (4, 5)]) (2, 3) (O_WRONLY ||| O_CREATE) 1 ∧
    ∀ p ∈ cmd.words, ∃ w, InputWord [0x61, 0x3e, 0x62, 0x20, 0x63] p w ∧ cstring buf p.1 = w := by
  obtain ⟨⟨cmd, buf⟩, heq, hcheck⟩ := @ok_of_check _ _ (parsecmd 24 [0x61, 0x3e, 0x62, 0x20, 0x63])
    (fun r => decide (r.1 = .redir (.exec [(0, 1), (4, 5)]) (2, 3) (O_WRONLY ||| O_CREATE) 1)) (by decide +kernel)
  have hclaim := nulterminate_yields_words [0x61, 0x3e, 0x62, 0x20, 0x63] (by decide) 24 (by decide) cmd buf heq
  exact ⟨cmd, buf, heq, of_decide_eq_true hcheck, hclaim.1⟩

end Xv6.Shell
