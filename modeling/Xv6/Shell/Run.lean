import Xv6.Shell.Parser

/-!
# Running a command

`runcmd` gives the programs of a line their files by closing, opening and duplicating descriptors. Each gets its
three and no other, and so do the shell processes that wait for them, so no end of a pipe stays open. `fork`,
`pipe` and `exec` are taken to succeed.
-/

namespace Xv6.Shell

open Function (update)

variable {W : Type}

/-- Where a command is in the line: the branches that lead to it. -/
abbrev Place := List Bool

/-- A file or an end of a pipe, with the command that opened it. -/
inductive Stream (W : Type) where
  | file (place : Place) (name : W) (mode : ℕ)
  | pipe (place : Place) (writable : Bool)

abbrev Ofile (W : Type) := ℕ → Option (Stream W)

def fdalloc (ofile : Ofile W) (f : Stream W) : Option (ℕ × Ofile W) :=
  ((List.range NOFILE).find? fun fd => (ofile fd).isNone).map fun fd => (fd, update ofile fd (some f))

def close (ofile : Ofile W) (fd : ℕ) : Ofile W := update ofile fd none

def dup (ofile : Ofile W) (fd : ℕ) : Ofile W := ((ofile fd).bind (fdalloc ofile)).elim ofile (·.2)

def pipe (ofile : Ofile W) (place : Place) : Option (ℕ × ℕ × Ofile W) := do
  let (p0, ofile) ← fdalloc ofile (.pipe place false)
  let (p1, ofile) ← fdalloc ofile (.pipe place true)
  some (p0, p1, ofile)

/-- What a process of the line comes to: it executes a program, or calls `wait` so many times. -/
inductive Job (W : Type) where
  | exec (argv : List W)
  | wait (times : ℕ)

variable (opens : Place → W → ℕ → Bool)

/-- What the processes come to, and the files that they have open then; `opens` says which redirections find their
file. A process that waits for the left part of a list goes on to the right one. -/
def runcmd (place : Place) (ofile : Ofile W) : Cmd W → List (Job W × Ofile W)
  | .exec argv => if argv = [] then [] else [(.exec argv, ofile)]
  | .redir cmd file mode fd =>
    if opens place file mode then
      (fdalloc (close ofile fd) (.file place file mode)).elim [] fun out => runcmd (false :: place) out.2 cmd
    else []
  | .list left right =>
    runcmd (false :: place) ofile left ++ (.wait 1, ofile) :: runcmd (true :: place) ofile right
  | .pipe left right => (pipe ofile place).elim [] fun (p0, p1, ofile) =>
      runcmd (false :: place) (close (close (dup (close ofile 1) p1) p0) p1) left ++
        runcmd (true :: place) (close (close (dup (close ofile 0) p0) p0) p1) right ++
        [(.wait 2, close (close ofile p0) p1)]
  | .back cmd => runcmd (false :: place) ofile cmd

/-- The programs that a command stands for and the processes that wait for them, with what they read and write. -/
def connect (place : Place) (io : ℕ → Stream W) : Cmd W → List (Job W × (ℕ → Stream W))
  | .exec argv => if argv = [] then [] else [(.exec argv, io)]
  | .redir cmd file mode fd =>
    if opens place file mode then connect (false :: place) (update io fd (.file place file mode)) cmd else []
  | .list left right => connect (false :: place) io left ++ (.wait 1, io) :: connect (true :: place) io right
  | .pipe left right => connect (false :: place) (update io 1 (.pipe place true)) left ++
      connect (true :: place) (update io 0 (.pipe place false)) right ++ [(.wait 2, io)]
  | .back cmd => connect (false :: place) io cmd

def standard (io : ℕ → Stream W) : Ofile W := fun fd => if fd < 3 then some (io fd) else none

/-- Only standard descriptors are redirected. -/
def Cmd.Redirects : Cmd W → Prop
  | .exec _ => True
  | .redir cmd _ _ fd => fd < 3 ∧ cmd.Redirects
  | .list left right | .pipe left right => left.Redirects ∧ right.Redirects
  | .back cmd => cmd.Redirects

theorem runcmd_connects (place : Place) (io : ℕ → Stream W) (cmd : Cmd W) (h : cmd.Redirects) :
    runcmd opens place (standard io) cmd = (connect opens place io cmd).map (Prod.map id standard) := by
  induction cmd generalizing place io with
  | exec argv =>
    rw [runcmd, connect]
    split <;> rfl
  | redir cmd file mode fd ih =>
    obtain ⟨hfd, h⟩ := h
    rw [runcmd, connect]
    by_cases hopen : opens place file mode
    · rw [if_pos hopen, if_pos hopen, ← ih _ _ h]
      interval_cases fd <;> apply congrArg (runcmd opens _ · cmd) <;> funext n <;> rcases n with _ | _ | _ | n <;> rfl
    · simp [hopen]
  | list left right ihl ihr =>
    rw [runcmd, connect, ihl _ _ h.1, ihr _ _ h.2, List.map_append, List.map_cons]
    rfl
  | back cmd ih => exact ih _ _ h
  | pipe left right ihl ihr =>
    rw [connect, List.map_append, List.map_append, ← ihl _ _ h.1, ← ihr _ _ h.2]
    -- The pipe gets descriptors 3 and 4; each child closes both, and so does the process that waits.
    change runcmd opens _ _ left ++ runcmd opens _ _ right ++ [(Job.wait 2, _)] = _
    rw [List.map_singleton]
    congr 2
    · apply congrArg (runcmd opens _ · left)
      funext n
      rcases n with _ | _ | _ | _ | _ | n <;> rfl
    · apply congrArg (runcmd opens _ · right)
      funext n
      rcases n with _ | _ | _ | _ | _ | n <;> rfl
    · refine Prod.ext rfl ?_
      funext n
      rcases n with _ | _ | _ | _ | _ | n <;> rfl

/-- A pipeline of two programs, the second with its output in a file: they are on the two ends of the pipe, and the
shell that waits for them is on neither. -/
theorem runcmd_connects_pipeline :
    let console : ℕ → Stream ℕ := fun _ => .file [] 0 2
    runcmd (fun _ _ _ => true) [] (standard console) (.pipe (.exec [1]) (.redir (.exec [2]) 3 0x201 1)) =
      [(.exec [1], standard (update console 1 (.pipe [] true))),
        (.exec [2], standard (update (update console 0 (.pipe [] false)) 1 (.file [true] 3 0x201))),
        (.wait 2, standard console)] :=
  runcmd_connects _ _ _ _ ⟨trivial, by decide, trivial⟩

end Xv6.Shell
