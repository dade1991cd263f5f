import Xv6.Lib.Run
import Xv6.Param

/-!
# The parser of the shell

`parsecmd` of `sh.c`. All the functions of the parser move one cursor, and only through `gettoken` and `peek`, so they
are written over any source of tokens; the source of the shell is a buffer with a cursor into it. Reading the buffer
after its end stops the parser, and so does a bound on the number of turns, which the functions take because they have
none of their own. `malloc` is taken to succeed.
-/

namespace Xv6.Shell

open Lib

abbrev MAXARGS : ℕ := 10

/-- What ends the parser without a result. -/
inductive Stop
  | panic (message : Panic)
  /-- The buffer was read after its end. -/
  | fault
  /-- The number of turns was not enough. -/
  | fuel
  deriving DecidableEq, Repr

/-- Parsed commands, over what stands for a word. -/
inductive Cmd (W : Type) where
  | exec (argv : List W)
  | redir (cmd : Cmd W) (file : W) (mode fd : ℕ)
  | pipe (left right : Cmd W)
  | list (left right : Cmd W)
  | back (cmd : Cmd W)
  deriving DecidableEq, Repr

section Buffer

/-- The characters of `" \t\r\n\v"`. -/
def whitespace : List UInt8 := [0x20, 0x09, 0x0d, 0x0a, 0x0b]

/-- The characters of `"<|>&;()"`. -/
def symbols : List UInt8 := [0x3c, 0x7c, 0x3e, 0x26, 0x3b, 0x28, 0x29]

variable (s : List UInt8)

/-- The character at a position of the buffer, which ends with a NUL. -/
def deref (i : ℕ) : Except Stop UInt8 :=
  match (s ++ [0])[i]? with
  | some c => .ok c
  | none => .error .fault

/-- Pass characters, with `n` of them left before the end. -/
def skip (passes : UInt8 → Bool) : ℕ → ℕ → Except Stop ℕ
  | 0, i => .ok i
  | n + 1, i => do
    let c ← deref s i
    if passes c then skip passes n (i + 1) else .ok i

def isWhite (c : UInt8) : Bool := whitespace.contains c

/-- A character that is part of a word. -/
def isWord (c : UInt8) : Bool := !whitespace.contains c && !symbols.contains c

/-- What `gettoken` returns for the character where the token begins, and where the token ends. -/
def token (i : ℕ) : Except Stop (UInt8 × ℕ) := do
  let c ← deref s i
  if c = 0 then .ok (c, i)
  else if c = '|'.toUInt8 ∨ c = '('.toUInt8 ∨ c = ')'.toUInt8 ∨ c = ';'.toUInt8 ∨ c = '&'.toUInt8 ∨ c = '<'.toUInt8 then
    .ok (c, i + 1)
  else if c = '>'.toUInt8 then do
    let d ← deref s (i + 1)
    if d = '>'.toUInt8 then .ok ('+'.toUInt8, i + 2) else .ok (c, i + 1)
  else do
    let j ← skip s isWord (s.length - i) i
    .ok ('a'.toUInt8, j)

/-- The token at the cursor, where it begins and ends, and the cursor after it. -/
def gettoken (ps : ℕ) : Except Stop (UInt8 × (ℕ × ℕ) × ℕ) := do
  let q ← skip s isWhite (s.length - ps) ps
  let (ret, eq) ← token s q
  let ps ← skip s isWhite (s.length - eq) eq
  .ok (ret, (q, eq), ps)

/-- Whether one of the characters is at the cursor, after white space. -/
def peek (toks : List UInt8) (ps : ℕ) : Except Stop (Bool × ℕ) := do
  let i ← skip s isWhite (s.length - ps) ps
  let c ← deref s i
  .ok (c ≠ 0 && toks.contains c, i)

end Buffer

/-- A source of tokens, with a cursor. -/
structure Source (S W : Type) where
  gettoken : S → Except Stop (UInt8 × W × S)
  peek : List UInt8 → S → Except Stop (Bool × S)

/-- The buffer of the shell. -/
def buffer (s : List UInt8) : Source ℕ (ℕ × ℕ) := ⟨gettoken s, peek s⟩

section Parser

variable {S W : Type} (source : Source S W)

/-- The node that a redirection adds for the symbol `tok`. -/
def redircmd (tok : UInt8) (file : W) (cmd : Cmd W) : Cmd W :=
  if tok = '<'.toUInt8 then .redir cmd file O_RDONLY 0
  else if tok = '>'.toUInt8 then .redir cmd file (O_WRONLY ||| O_CREATE) 1
  else if tok = '+'.toUInt8 then .redir cmd file (O_WRONLY ||| O_CREATE) 1
  else cmd

def parseredirs : ℕ → Cmd W → S → Except Stop (Cmd W × S)
  | 0, _, _ => .error .fuel
  | fuel + 1, cmd, ps => do
    let (more, ps) ← source.peek ['<'.toUInt8, '>'.toUInt8] ps
    if more then do
      let (tok, _, ps) ← source.gettoken ps
      let (tok', file, ps) ← source.gettoken ps
      if tok' ≠ 'a'.toUInt8 then .error (.panic "missing file for redirection")
      else parseredirs fuel (redircmd tok file cmd) ps
    else .ok (cmd, ps)

/-- One more argument for the command that redirections have been wrapped around. -/
def Cmd.addArg (arg : W) : Cmd W → Cmd W
  | .exec argv => .exec (argv ++ [arg])
  | .redir cmd file mode fd => .redir (cmd.addArg arg) file mode fd
  | cmd => cmd

/-- The loop of `parseexec`. -/
def parseargs : ℕ → Cmd W → ℕ → S → Except Stop (Cmd W × S)
  | 0, _, _, _ => .error .fuel
  | fuel + 1, ret, argc, ps => do
    let (done, ps) ← source.peek ['|'.toUInt8, ')'.toUInt8, '&'.toUInt8, ';'.toUInt8] ps
    if done then .ok (ret, ps)
    else do
      let (tok, arg, ps) ← source.gettoken ps
      if tok = 0 then .ok (ret, ps)
      else if tok ≠ 'a'.toUInt8 then .error (.panic "syntax")
      else
        let ret := ret.addArg arg
        let argc := argc + 1
        if argc ≥ MAXARGS then .error (.panic "too many args")
        else do
          let (ret, ps) ← parseredirs source fuel ret ps
          parseargs fuel ret argc ps

/-- The loop of `parseline` over the `&` after a command. -/
def parsebacks : ℕ → Cmd W → S → Except Stop (Cmd W × S)
  | 0, _, _ => .error .fuel
  | fuel + 1, cmd, ps => do
    let (more, ps) ← source.peek ['&'.toUInt8] ps
    if more then do
      let (_, _, ps) ← source.gettoken ps
      parsebacks fuel (.back cmd) ps
    else .ok (cmd, ps)

mutual

def parseline : ℕ → S → Except Stop (Cmd W × S)
  | 0, _ => .error .fuel
  | fuel + 1, ps => do
    let (cmd, ps) ← parsepipe fuel ps
    let (cmd, ps) ← parsebacks source fuel cmd ps
    let (more, ps) ← source.peek [';'.toUInt8] ps
    if more then do
      let (_, _, ps) ← source.gettoken ps
      let (right, ps) ← parseline fuel ps
      .ok (.list cmd right, ps)
    else .ok (cmd, ps)

def parsepipe : ℕ → S → Except Stop (Cmd W × S)
  | 0, _ => .error .fuel
  | fuel + 1, ps => do
    let (cmd, ps) ← parseexec fuel ps
    let (more, ps) ← source.peek ['|'.toUInt8] ps
    if more then do
      let (_, _, ps) ← source.gettoken ps
      let (right, ps) ← parsepipe fuel ps
      .ok (.pipe cmd right, ps)
    else .ok (cmd, ps)

def parseblock : ℕ → S → Except Stop (Cmd W × S)
  | 0, _ => .error .fuel
  | fuel + 1, ps => do
    let (opened, ps) ← source.peek ['('.toUInt8] ps
    if !opened then .error (.panic "parseblock")
    else do
      let (_, _, ps) ← source.gettoken ps
      let (cmd, ps) ← parseline fuel ps
      let (closed, ps) ← source.peek [')'.toUInt8] ps
      if !closed then .error (.panic "syntax - missing )")
      else do
        let (_, _, ps) ← source.gettoken ps
        parseredirs source fuel cmd ps

def parseexec : ℕ → S → Except Stop (Cmd W × S)
  | 0, _ => .error .fuel
  | fuel + 1, ps => do
    let (opened, ps) ← source.peek ['('.toUInt8] ps
    if opened then parseblock fuel ps
    else do
      let (ret, ps) ← parseredirs source fuel (.exec []) ps
      parseargs source fuel ret 0 ps

end

end Parser

/-- Put a NUL after every word. -/
def nulterminate : Cmd (ℕ × ℕ) → List UInt8 → List UInt8
  | .exec argv, buf => argv.foldl (fun buf arg => buf.set arg.2 0) buf
  | .redir cmd file _ _, buf => (nulterminate cmd buf).set file.2 0
  | .pipe left right, buf => nulterminate right (nulterminate left buf)
  | .list left right, buf => nulterminate right (nulterminate left buf)
  | .back cmd, buf => nulterminate cmd buf

/-- A command, with its words as positions in the buffer, and the buffer it leaves. -/
def parsecmd (fuel : ℕ) (s : List UInt8) : Except Stop (Cmd (ℕ × ℕ) × List UInt8) := do
  let (cmd, ps) ← parseline (buffer s) fuel 0
  let (_, ps) ← peek s [] ps
  if ps ≠ s.length then .error (.panic "syntax") else .ok (cmd, nulterminate cmd (s ++ [0]))

/-- The string at a position of a buffer. -/
def cstring (buf : List UInt8) (i : ℕ) : List UInt8 := (buf.drop i).takeWhile (· ≠ 0)

def Cmd.map {V W : Type} (f : V → W) : Cmd V → Cmd W
  | .exec argv => .exec (argv.map f)
  | .redir cmd file mode fd => .redir (cmd.map f) (f file) mode fd
  | .pipe left right => .pipe (left.map f) (right.map f)
  | .list left right => .list (left.map f) (right.map f)
  | .back cmd => .back (cmd.map f)

/-- The command tree that a program finds in the memory of the parser. -/
def strings (buf : List UInt8) (cmd : Cmd (ℕ × ℕ)) : Cmd (List UInt8) := cmd.map fun word => cstring buf word.1

end Xv6.Shell
