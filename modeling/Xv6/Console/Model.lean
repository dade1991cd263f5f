import Xv6.Lib.Run
import Xv6.Param

/-!
# Console input

`consoleintr` puts characters into a ring of 128 and edits the last line, and `consoleread` takes committed
characters out of it. Both hold the lock of the console, `consoleread` from one `sleep` to the next, so calls
interleave at these points. A process that sleeps may go on at any time, woken up or not, and finds out for itself
whether there is something to read.
-/

namespace Xv6.Console

open Lib

abbrev INPUT_BUF : UInt32 := 128

/-- Control-x. -/
def C (x : UInt8) : UInt8 := x - 0x40

/-- The input buffer, and the characters that readers took out of it so far. -/
structure Input where
  buf : ℕ → UInt8
  /-- Read index. -/
  r : UInt32
  /-- Write index. -/
  w : UInt32
  /-- Edit index. -/
  e : UInt32
  consumed : List UInt8

/-- Taking back a character brings the edit index closer to the write index. -/
theorem sub_one_lt {e w : UInt32} (h : e ≠ w) : (e - 1 - w).toNat < (e - w).toNat := by
  have hne : e.toNat ≠ w.toNat := fun heq => h (UInt32.toNat_inj.mp heq)
  have he := e.toNat_lt
  have hw := w.toNat_lt
  have hone : (1 : UInt32).toNat = 1 := rfl
  rw [UInt32.toNat_sub, UInt32.toNat_sub, UInt32.toNat_sub]
  omega

/-- The loop that kills the line. -/
def Input.killLine (input : Input) : Input :=
  if _h : input.e ≠ input.w ∧ input.buf ((input.e - 1) % INPUT_BUF).toNat ≠ '\n'.toUInt8 then
    Input.killLine { input with e := input.e - 1 }
  else input
termination_by (input.e - input.w).toNat
decreasing_by exact sub_one_lt _h.1

/-- What `consoleintr` does with one character. Control-P only lists the processes. -/
def Input.key (input : Input) (c : UInt8) : Input :=
  if c = C 'P'.toUInt8 then input
  else if c = C 'U'.toUInt8 then input.killLine
  else if c = C 'H'.toUInt8 ∨ c = 0x7f then
    if input.e ≠ input.w then { input with e := input.e - 1 } else input
  else if c ≠ 0 ∧ input.e - input.r < INPUT_BUF then
    let c := if c = '\r'.toUInt8 then '\n'.toUInt8 else c
    let input := { input with buf := Function.update input.buf (input.e % INPUT_BUF).toNat c, e := input.e + 1 }
    if c = '\n'.toUInt8 ∨ c = C 'D'.toUInt8 ∨ input.e = input.r + INPUT_BUF then { input with w := input.e } else input
  else input

/-- Handle the characters that `getc` returns. -/
def consoleintr (input : Input) (cs : List UInt8) : Input := cs.foldl Input.key input

/-- How a part of a call of `consoleread` ends: with the value it returns and the characters copied, or asleep with
`n` characters to come. -/
inductive Outcome
  | returned (r : ℤ) (dst : List UInt8)
  | asleep (n : ℕ) (dst : List UInt8)
  deriving DecidableEq

/-- The loop of `consoleread`, up to its end or its next `sleep`. -/
def consoleread (killed : Bool) (target : ℕ) : ℕ → Input → List UInt8 → Input × Outcome
  | 0, input, dst => (input, .returned target dst)
  | n + 1, input, dst =>
    if input.r = input.w then
      if killed then (input, .returned (-1) dst) else (input, .asleep (n + 1) dst)
    else
      let c := input.buf (input.r % INPUT_BUF).toNat
      let input := { input with r := input.r + 1, consumed := input.consumed ++ [c] }
      if c = C 'D'.toUInt8 then
        if n + 1 < target then
          -- Save ^D for next time, to make sure caller gets a 0-byte result.
          ({ input with r := input.r - 1, consumed := input.consumed.dropLast }, .returned (target - (n + 1 : ℕ)) dst)
        else (input, .returned (target - (n + 1 : ℕ)) dst)
      else if c = '\n'.toUInt8 then (input, .returned (target - n) (dst ++ [c]))
      else consoleread killed target n input (dst ++ [c])

/-- A device with lines of input: what a character does, and how far a reader gets. -/
structure Device (S : Type) where
  intr : S → List UInt8 → S
  read : Bool → ℕ → ℕ → S → List UInt8 → S × Outcome

/-- The console. -/
def console : Device Input := ⟨consoleintr, consoleread⟩

/-- A call of `consoleread` that sleeps. -/
structure Call where
  target : ℕ
  n : ℕ
  dst : List UInt8
  deriving DecidableEq

/-- A device and its readers. -/
structure State (P S : Type) where
  device : S
  calls : P → Option Call
  /-- The calls that have returned, with the characters copied. -/
  returns : List (P × ℤ × List UInt8)

/-- What can happen: an interrupt, a call of `consoleread`, and a process that goes on after its `sleep`. A process may
be killed. -/
inductive Action (P : Type)
  | intr (cs : List UInt8)
  | read (p : P) (n : ℤ) (killed : Bool)
  | resume (p : P) (killed : Bool)

variable {P S : Type} [DecidableEq P]

/-- The state after a part of a call. -/
def State.after (s : State P S) (p : P) (target : ℕ) (result : S × Outcome) : State P S :=
  match result with
  | (device, .returned r dst) =>
    { device := device, calls := Function.update s.calls p none, returns := s.returns ++ [(p, r, dst)] }
  | (device, .asleep n dst) => { s with device := device, calls := Function.update s.calls p (some ⟨target, n, dst⟩) }

/-- One step. The loop of `consoleread` is not entered if `n` is not positive. -/
def step (dev : Device S) (s : State P S) : Action P → Option (Except Panic (State P S))
  | .intr cs => some (.ok { s with device := dev.intr s.device cs })
  | .read p n killed =>
    match s.calls p with
    | none => some (.ok (s.after p n.toNat (dev.read killed n.toNat n.toNat s.device [])))
    | some _ => none
  | .resume p killed =>
    match s.calls p with
    | none => none
    | some call => some (.ok (s.after p call.target (dev.read killed call.target call.n s.device call.dst)))

/-- No characters, and no readers. -/
def start (device : S) : State P S := ⟨device, fun _ => none, []⟩

end Xv6.Console
