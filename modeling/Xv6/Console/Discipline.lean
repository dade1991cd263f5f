import Xv6.Console.Model
import Xv6.Lib.Ring

/-!
# The line discipline

What the console is for, without indices: characters that readers consumed, characters that are committed and not
yet consumed, and the line that is being edited. Editing stays within that line; a line is committed as a whole, and
what is committed only grows. The ring buffer implements this, however often its indices wrap around.
-/

namespace Xv6.Console

open Lib
open List (length_append prefix_append append_assoc prefix_rfl)

/-- A terminal. -/
structure Tty where
  consumed : List UInt8
  pending : List UInt8
  line : List UInt8

namespace Tty

/-- The committed input. -/
def committed (t : Tty) : List UInt8 := t.consumed ++ t.pending

/-- A character is accepted as long as there are fewer than 128 that are not consumed. The line is committed by a
newline, by control-D, and when there is no room for more. -/
def key (t : Tty) (c : UInt8) : Tty :=
  if c = C 'P'.toUInt8 then t
  else if c = C 'U'.toUInt8 then { t with line := [] }
  else if c = C 'H'.toUInt8 ∨ c = 0x7f then { t with line := t.line.dropLast }
  else if c = 0 ∨ 128 ≤ t.pending.length + t.line.length then t
  else
    let c := if c = '\r'.toUInt8 then '\n'.toUInt8 else c
    let line := t.line ++ [c]
    if c = '\n'.toUInt8 ∨ c = C 'D'.toUInt8 ∨ t.pending.length + line.length = 128 then
      { t with pending := t.pending ++ line, line := [] }
    else { t with line := line }

def keys (t : Tty) (cs : List UInt8) : Tty := cs.foldl key t

/-- A reader gets at most a line. Control-D ends its input and is consumed by a reader that got nothing else. -/
def read (killed : Bool) (target : ℕ) : ℕ → Tty → List UInt8 → Tty × Outcome
  | 0, t, dst => (t, .returned target dst)
  | n + 1, t, dst =>
    match t.pending with
    | [] => if killed then (t, .returned (-1) dst) else (t, .asleep (n + 1) dst)
    | c :: rest =>
      if c = C 'D'.toUInt8 ∧ n + 1 < target then (t, .returned (target - (n + 1 : ℕ)) dst)
      else
        let t := { t with consumed := t.consumed ++ [c], pending := rest }
        if c = C 'D'.toUInt8 then (t, .returned (target - (n + 1 : ℕ)) dst)
        else if c = '\n'.toUInt8 then (t, .returned (target - n) (dst ++ [c]))
        else read killed target n t (dst ++ [c])

end Tty

/-- A terminal as a device. -/
def tty : Device Tty := ⟨Tty.keys, Tty.read⟩

/-- No input. -/
def Tty.new : Tty := ⟨[], [], []⟩

/-- The buffer holds what is pending and the line; a full buffer is committed, and there is no newline in the line. -/
structure Holds (input : Input) (t : Tty) : Prop where
  ring : Ring INPUT_BUF input.buf input.r input.e t.consumed (t.committed ++ t.line)
  w_eq : input.w = UInt32.ofNat t.committed.length
  consumed : input.consumed = t.consumed
  full : t.pending.length + t.line.length = 128 → t.line = []
  plain : '\n'.toUInt8 ∉ t.line

section Ring

variable {input : Input} {t : Tty}

theorem Tty.length_committed (t : Tty) : t.committed.length = t.consumed.length + t.pending.length := length_append

section

variable (h : Holds input t)

include h

/-- The committed part of the buffer. -/
theorem Holds.written : Ring INPUT_BUF input.buf input.r input.w t.consumed t.committed := by
  rw [h.w_eq]
  exact h.ring.shorten (prefix_append ..) (prefix_append ..)

theorem Holds.count_w : (input.w - input.r).toNat = t.pending.length := by
  rw [h.written.count, t.length_committed, Nat.add_sub_cancel_left]

theorem Holds.count_e : (input.e - input.r).toNat = t.pending.length + t.line.length := by
  rw [h.ring.count, length_append, t.length_committed]
  omega

theorem Holds.room : t.pending.length + t.line.length ≤ 128 := by
  have hroom := h.ring.room
  rw [length_append, t.length_committed] at hroom
  have hsize : INPUT_BUF.toNat = 128 := rfl
  omega

theorem Holds.empty_iff : input.r = input.w ↔ t.pending = [] := by
  rw [h.written.empty_iff, t.length_committed, ← List.length_eq_zero_iff]
  omega

/-- There is a line to edit. -/
theorem Holds.line_iff : input.e ≠ input.w ↔ t.line ≠ [] := by
  have hw := h.count_w
  have he := h.count_e
  rw [not_iff_not, ← List.length_eq_zero_iff]
  constructor
  · intro heq
    rw [heq] at he
    omega
  intro hzero
  have hsame : (input.e - input.r).toNat = (input.w - input.r).toNat := by omega
  have hlt := input.e.toNat_lt
  have hlt' := input.w.toNat_lt
  rw [UInt32.toNat_sub, UInt32.toNat_sub] at hsame
  exact UInt32.toNat_inj.mp (by omega)

theorem Holds.accepts_iff : input.e - input.r < INPUT_BUF ↔ ¬128 ≤ t.pending.length + t.line.length := by
  rw [UInt32.lt_iff_toNat_lt, h.count_e, Nat.not_le]
  rfl

end

variable {l : List UInt8} {x : UInt8}

section

variable (h : Holds input t)

include h

/-- The last character of the line is taken back. -/
theorem Holds.erase (hline : t.line = l ++ [x]) : Holds { input with e := input.e - 1 } { t with line := l } where
  ring := by
    have hring := h.ring
    rw [hline, ← append_assoc] at hring
    exact hring.erase ((prefix_append ..).trans (prefix_append ..))
  w_eq := h.w_eq
  consumed := h.consumed
  full hlength := by
    have hroom := h.room
    rw [hline, length_append, List.length_singleton] at hroom
    dsimp only at hlength
    omega
  plain hin := h.plain (by rw [hline]; exact List.mem_append_left _ hin)

/-- The character before the edit index. -/
theorem Holds.last (hline : t.line = l ++ [x]) : input.buf ((input.e - 1) % INPUT_BUF).toNat = x := by
  have hring := h.ring
  rw [hline, ← append_assoc] at hring
  refine hring.last ?_
  rw [length_append, t.length_committed]
  omega

theorem Holds.killLine : Holds input.killLine { t with line := [] } := by
  induction hl : t.line using List.reverseRecOn generalizing input t with
  | nil =>
    rw [Input.killLine, dif_neg fun hboth => h.line_iff.mp hboth.1 hl]
    rw [← hl]
    exact h
  | append_singleton l x ih =>
    have hne : input.e ≠ input.w := h.line_iff.mpr (by rw [hl]; simp)
    have hx : x ≠ '\n'.toUInt8 := fun heq => h.plain (by rw [hl, heq]; simp)
    rw [Input.killLine, dif_pos ⟨hne, by rw [h.last hl]; exact hx⟩]
    have hrest := ih (h.erase hl) rfl
    exact hrest

/-- A character is stored. -/
theorem Holds.put (hroom : ¬128 ≤ t.pending.length + t.line.length) (c : UInt8) :
    Ring INPUT_BUF (Function.update input.buf (input.e % INPUT_BUF).toNat c) input.r (input.e + 1) t.consumed
      (t.committed ++ (t.line ++ [c])) ∧
    (input.e + 1 = input.r + INPUT_BUF ↔ t.pending.length + (t.line ++ [c]).length = 128) := by
  have hput := h.ring.put (fun hfull => by
    have hlength := h.ring.full_iff.mp hfull
    rw [length_append, t.length_committed] at hlength
    have hsize : INPUT_BUF.toNat = 128 := rfl
    omega) c
  rw [append_assoc] at hput
  refine ⟨hput, ?_⟩
  rw [hput.full_iff, length_append, t.length_committed]
  have hsize : INPUT_BUF.toNat = 128 := rfl
  omega

/-- The buffer implements what a character does. -/
theorem Holds.key (c : UInt8) : Holds (input.key c) (t.key c) := by
  unfold Input.key Tty.key
  by_cases hP : c = C 'P'.toUInt8
  · rw [if_pos hP, if_pos hP]
    exact h
  rw [if_neg hP, if_neg hP]
  by_cases hU : c = C 'U'.toUInt8
  · rw [if_pos hU, if_pos hU]
    exact h.killLine
  rw [if_neg hU, if_neg hU]
  by_cases hH : c = C 'H'.toUInt8 ∨ c = 0x7f
  · rw [if_pos hH, if_pos hH]
    rcases List.eq_nil_or_concat t.line with hnil | ⟨l, x, hline⟩
    · rw [if_neg fun hne => h.line_iff.mp hne hnil, hnil, List.dropLast_nil, ← hnil]
      exact h
    · rw [List.concat_eq_append] at hline
      rw [if_pos (h.line_iff.mpr (by rw [hline]; simp)), hline, List.dropLast_concat]
      exact h.erase hline
  rw [if_neg hH, if_neg hH]
  by_cases hdrop : c = 0 ∨ 128 ≤ t.pending.length + t.line.length
  · rw [if_pos hdrop, if_neg]
    · exact h
    · rw [h.accepts_iff]
      tauto
  rw [if_neg hdrop, if_pos (by rw [h.accepts_iff]; tauto)]
  have hroom : ¬128 ≤ t.pending.length + t.line.length := fun hfull => hdrop (.inr hfull)
  generalize (if c = '\r'.toUInt8 then '\n'.toUInt8 else c) = x
  obtain ⟨hring, hfull⟩ := h.put hroom x
  by_cases hcommit : x = '\n'.toUInt8 ∨ x = C 'D'.toUInt8 ∨ t.pending.length + (t.line ++ [x]).length = 128
  · rw [if_pos hcommit, if_pos (hcommit.imp_right (Or.imp_right hfull.mpr))]
    have hcommitted :
        (⟨t.consumed, t.pending ++ (t.line ++ [x]), []⟩ : Tty).committed = t.committed ++ (t.line ++ [x]) := by
      simp only [Tty.committed, append_assoc]
    refine ⟨?_, ?_, h.consumed, fun _ => rfl, List.not_mem_nil⟩
    · rw [hcommitted, List.append_nil]
      exact hring
    · rw [hcommitted]
      exact hring.nwrite_eq
  · rw [if_neg hcommit, if_neg fun hany => hcommit (hany.imp_right (Or.imp_right hfull.mp))]
    refine ⟨hring, h.w_eq, h.consumed, fun hlength => absurd (.inr (.inr hlength)) hcommit, fun hin => ?_⟩
    rcases List.mem_append.mp hin with hold | hnew
    · exact h.plain hold
    · exact hcommit (.inl (List.mem_singleton.mp hnew).symm)

theorem Holds.keys (cs : List UInt8) : Holds (consoleintr input cs) (t.keys cs) := by
  induction cs generalizing input t with
  | nil => exact h
  | cons c cs ih => exact ih (h.key c)

/-- The next committed character is consumed. -/
theorem Holds.take {c : UInt8} {rest : List UInt8} (hpending : t.pending = c :: rest) :
    input.buf (input.r % INPUT_BUF).toNat = c ∧
      Holds { input with r := input.r + 1, consumed := input.consumed ++ [c] }
        { t with consumed := t.consumed ++ [c], pending := rest } := by
  have hring := h.ring
  have hstored : t.committed ++ t.line = t.consumed ++ c :: (rest ++ t.line) := by
    rw [Tty.committed, hpending, append_assoc, List.cons_append]
  rw [hstored] at hring
  have hnext := hring.next
  have hne : input.r ≠ input.e := fun heq => by
    have hlength := hring.empty_iff.mp heq
    simp at hlength
  have htake := hring.take hne
  rw [hnext] at htake
  have hcommitted : (⟨t.consumed ++ [c], rest, t.line⟩ : Tty).committed = t.committed := by
    rw [Tty.committed, Tty.committed, hpending, append_assoc, List.singleton_append]
  refine ⟨hnext, ?_, ?_, ?_, fun hlength => ?_, h.plain⟩
  · rw [hcommitted, hstored]
    exact htake
  · rw [hcommitted]
    exact h.w_eq
  · rw [h.consumed]
  · have hroom := h.room
    rw [hpending, List.length_cons] at hroom
    dsimp only at hlength
    omega

end

/-- The buffer implements what a reader gets. -/
theorem Holds.read (killed : Bool) (target n : ℕ) (dst : List UInt8) (h : Holds input t) :
    ∃ input' t' outcome, consoleread killed target n input dst = (input', outcome) ∧
      Tty.read killed target n t dst = (t', outcome) ∧ Holds input' t' := by
  induction n generalizing input t dst with
  | zero => exact ⟨input, t, _, rfl, rfl, h⟩
  | succ n ih =>
    unfold consoleread Tty.read
    cases hpending : t.pending with
    | nil =>
      rw [if_pos (h.empty_iff.mpr hpending)]
      cases killed with
      | true | false => exact ⟨input, t, _, rfl, rfl, h⟩
    | cons c rest =>
      have hne : input.r ≠ input.w := fun heq => by
        rw [h.empty_iff.mp heq] at hpending
        cases hpending
      obtain ⟨hnext, htaken⟩ := h.take hpending
      rw [if_neg hne, hnext]
      dsimp only
      by_cases hD : c = C 'D'.toUInt8
      · rw [if_pos hD]
        by_cases hsome : n + 1 < target
        · rw [if_pos hsome, if_pos ⟨hD, hsome⟩, List.dropLast_concat, UInt32.add_sub_cancel]
          exact ⟨input, t, _, rfl, rfl, h⟩
        · have hkeep : ¬(c = C 'D'.toUInt8 ∧ n + 1 < target) := fun hboth => hsome hboth.2
          rw [if_neg hsome, if_neg hkeep, if_pos hD]
          exact ⟨_, _, _, rfl, rfl, htaken⟩
      have hkeep : ¬(c = C 'D'.toUInt8 ∧ n + 1 < target) := fun hboth => hD hboth.1
      rw [if_neg hD, if_neg hkeep, if_neg hD]
      by_cases hnewline : c = '\n'.toUInt8
      · rw [if_pos hnewline, if_pos hnewline]
        exact ⟨_, _, _, rfl, rfl, htaken⟩
      · rw [if_neg hnewline, if_neg hnewline]
        exact ih (dst ++ [c]) htaken

end Ring

section Facts

variable {P : Type}

/-- The console with its readers does what a terminal does. -/
structure Simulates (s : State P Input) (t : State P Tty) : Prop where
  device : Holds s.device t.device
  calls : s.calls = t.calls
  returns : s.returns = t.returns

/-- The characters from the read index to the write index. -/
def Input.unread (input : Input) : List UInt8 :=
  (List.range (input.w - input.r).toNat).map fun i => input.buf ((input.r + UInt32.ofNat i) % INPUT_BUF).toNat

theorem Holds.unread {input : Input} {t : Tty} (h : Holds input t) : input.unread = t.pending := by
  refine List.ext_getElem ?_ fun i hi hi' => ?_
  · rw [Input.unread, List.length_map, List.length_range, h.count_w]
  have hplace : ((input.r + UInt32.ofNat i) % INPUT_BUF).toNat = (t.consumed.length + i) % 128 := by
    have hsize : INPUT_BUF.toNat = 128 := rfl
    rw [UInt32.toNat_mod, UInt32.toNat_add, h.ring.toNat_nread, UInt32.toNat_ofNat', hsize]
    omega
  have hdata := h.written.data_eq (t.consumed.length + i) t.pending[i] (by
    rw [Tty.committed, List.getElem?_append_right (Nat.le_add_right _ _), Nat.add_sub_cancel_left]
    exact List.getElem?_eq_getElem hi') (Nat.le_add_right _ _)
  simp only [Input.unread, List.getElem_map, List.getElem_range, hplace]
  exact hdata

/-- The indices are in order, a full buffer can be read, and consumed and unread characters are the committed input. -/
structure Disciplined (s : State P Input) (t : State P Tty) : Prop where
  written : s.device.w - s.device.r ≤ s.device.e - s.device.r
  edited : s.device.e - s.device.r ≤ INPUT_BUF
  readable : s.device.e - s.device.r = INPUT_BUF → s.device.w = s.device.e
  committed : s.device.consumed ++ s.device.unread = t.device.committed
  returns : s.returns = t.returns

theorem Simulates.disciplined {s : State P Input} {t : State P Tty} (h : Simulates s t) : Disciplined s t where
  written := by
    rw [UInt32.le_iff_toNat_le, h.device.count_w, h.device.count_e]
    exact Nat.le_add_right _ _
  edited := by
    rw [UInt32.le_iff_toNat_le, h.device.count_e]
    exact h.device.room
  readable hfull := by
    have hcount := h.device.count_e
    rw [hfull] at hcount
    have hline := h.device.full hcount.symm
    by_contra hne
    exact h.device.line_iff.mp (Ne.symm hne) hline
  committed := by rw [h.device.consumed, h.device.unread, Tty.committed]
  returns := h.returns

end Facts

section Run

variable {P : Type} [DecidableEq P] {s s' : State P Input} {t : State P Tty} {trace : List (Action P)}

theorem Simulates.after (h : Simulates s t) (p : P) (killed : Bool) (target n : ℕ) (dst : List UInt8) :
    Simulates (s.after p target (consoleread killed target n s.device dst))
      (t.after p target (Tty.read killed target n t.device dst)) := by
  obtain ⟨input', t', outcome, hcode, hspec, hholds⟩ := h.device.read killed target n dst
  rw [hcode, hspec]
  cases outcome with
  | returned r dst =>
    refine ⟨hholds, ?_, ?_⟩
    · simp only [State.after, h.calls]
    · simp only [State.after, h.returns]
  | asleep n dst =>
    refine ⟨hholds, ?_, h.returns⟩
    simp only [State.after, h.calls]

/-- Every step of the console is a step of the terminal. -/
theorem Simulates.step {a : Action P} (h : Simulates s t) (ha : step console s a = some (.ok s')) :
    ∃ t', step tty t a = some (.ok t') ∧ Simulates s' t' := by
  cases a with
  | intr cs =>
    cases ha
    exact ⟨_, rfl, h.device.keys cs, h.calls, h.returns⟩
  | read p n killed =>
    simp only [Console.step] at ha ⊢
    rw [← h.calls]
    cases hcall : s.calls p with
    | none =>
      rw [hcall] at ha
      cases ha
      exact ⟨_, rfl, h.after p killed _ _ _⟩
    | some call =>
      rw [hcall] at ha
      cases ha
  | resume p killed =>
    simp only [Console.step] at ha ⊢
    rw [← h.calls]
    cases hcall : s.calls p with
    | none =>
      rw [hcall] at ha
      cases ha
    | some call =>
      rw [hcall] at ha
      cases ha
      exact ⟨_, rfl, h.after p killed _ _ _⟩

theorem simulates_run (h : Simulates s t) (hrun : Run (step console) s trace s') :
    ∃ t', Run (step tty) t trace t' ∧ Simulates s' t' := by
  induction hrun with
  | nil => exact ⟨t, .nil, h⟩
  | snoc _ ha ih =>
    obtain ⟨t₁, hrun₁, h₁⟩ := ih
    obtain ⟨t', hstep, h'⟩ := h₁.step ha
    exact ⟨t', hrun₁.snoc hstep, h'⟩

/-- What was consumed and what was committed stays, and only grows. -/
structure Tty.Extends (t t' : Tty) : Prop where
  consumed : t.consumed <+: t'.consumed
  committed : t.committed <+: t'.committed

theorem Tty.Extends.refl (t : Tty) : t.Extends t := ⟨prefix_rfl, prefix_rfl⟩

theorem Tty.Extends.trans {t t' t'' : Tty} (h : t.Extends t') (h' : t'.Extends t'') : t.Extends t'' :=
  ⟨h.consumed.trans h'.consumed, h.committed.trans h'.committed⟩

/-- Editing the line changes nothing else. -/
theorem Tty.Extends.edit (t : Tty) (line : List UInt8) : t.Extends { t with line := line } :=
  ⟨prefix_rfl, prefix_rfl⟩

theorem Tty.key_extends (t : Tty) (c : UInt8) : t.Extends (t.key c) := by
  unfold Tty.key
  by_cases hP : c = C 'P'.toUInt8
  · rw [if_pos hP]
    exact .refl t
  by_cases hU : c = C 'U'.toUInt8
  · rw [if_neg hP, if_pos hU]
    exact .edit t []
  by_cases hH : c = C 'H'.toUInt8 ∨ c = 0x7f
  · rw [if_neg hP, if_neg hU, if_pos hH]
    exact .edit t _
  rw [if_neg hP, if_neg hU, if_neg hH]
  generalize (if c = '\r'.toUInt8 then '\n'.toUInt8 else c) = x
  split
  · exact .refl t
  dsimp only
  split
  · refine ⟨prefix_rfl, ?_⟩
    rw [Tty.committed, Tty.committed, ← append_assoc]
    exact prefix_append ..
  · exact .edit t _

theorem Tty.keys_extends (t : Tty) (cs : List UInt8) : t.Extends (t.keys cs) := by
  induction cs generalizing t with
  | nil => exact .refl t
  | cons c cs ih => exact (t.key_extends c).trans (ih (t.key c))

/-- A reader consumes what is committed. -/
theorem Tty.read_extends (killed : Bool) (target n : ℕ) (t : Tty) (dst : List UInt8) :
    t.Extends (Tty.read killed target n t dst).1 := by
  induction n generalizing t dst with
  | zero => exact .refl t
  | succ n ih =>
    unfold Tty.read
    cases hpending : t.pending with
    | nil =>
      dsimp only
      split
      · exact .refl t
      · exact .refl t
    | cons c rest =>
      have htaken : t.Extends ⟨t.consumed ++ [c], rest, t.line⟩ := by
        have hsame : (⟨t.consumed ++ [c], rest, t.line⟩ : Tty).committed = t.committed := by
          rw [Tty.committed, Tty.committed, hpending, append_assoc, List.singleton_append]
        exact ⟨prefix_append .., hsame ▸ prefix_rfl⟩
      dsimp only
      split
      · exact .refl t
      split
      · exact htaken
      · split
        · exact htaken
        · exact htaken.trans (ih _ _)

theorem State.after_device {S : Type} (s : State P S) (p : P) (target : ℕ) (result : S × Outcome) :
    (s.after p target result).device = result.1 := by
  obtain ⟨device, outcome⟩ := result
  cases outcome with
  | returned r dst => rfl
  | asleep n dst => rfl

theorem extends_run {t' : State P Tty} (h : Run (step tty) t trace t') : t.device.Extends t'.device := by
  induction h with
  | nil => exact .refl _
  | @snoc trace a t₁ t₂ _ ha ih =>
    refine ih.trans ?_
    cases a with
    | intr cs =>
      cases ha
      exact t₁.device.keys_extends cs
    | read p n killed =>
      simp only [Console.step] at ha
      split at ha
      · cases ha
        rw [State.after_device]
        exact Tty.read_extends ..
      · cases ha
    | resume p killed =>
      simp only [Console.step] at ha
      split at ha
      · cases ha
      · cases ha
        rw [State.after_device]
        exact Tty.read_extends ..

/-- The console follows the line discipline of a terminal in every run, and what it has committed it does not
change. -/
theorem console_follows_discipline (buf : ℕ → UInt8) {trace : List (Action P)} {s : State P Input}
    (h : Run (step console) (start ⟨buf, 0, 0, 0, []⟩) trace s) :
    ∃ t, Run (step tty) (start Tty.new) trace t ∧ Disciplined s t ∧
      ∀ later s', Run (step console) s later s' →
        s.device.consumed <+: s'.device.consumed ∧
        s.device.consumed ++ s.device.unread <+: s'.device.consumed ++ s'.device.unread := by
  have hstart : Simulates (start (P := P) ⟨buf, 0, 0, 0, []⟩) (start Tty.new) :=
    ⟨⟨Ring.new (by decide) (by decide) buf, rfl, rfl, fun _ => rfl, List.not_mem_nil⟩, rfl, rfl⟩
  obtain ⟨t, hrun, hsim⟩ := simulates_run hstart h
  refine ⟨t, hrun, hsim.disciplined, fun later s' hlater => ?_⟩
  obtain ⟨t', hrun', hsim'⟩ := simulates_run hsim hlater
  have hgrows := extends_run hrun'
  rw [hsim.disciplined.committed, hsim'.disciplined.committed, hsim.device.consumed, hsim'.device.consumed]
  exact ⟨hgrows.consumed, hgrows.committed⟩

/-- A line is killed, another is edited and entered with a return, and a reader takes it in two calls. -/
theorem console_follows_discipline_line :
    ∃ (trace : List (Action Unit)) (s : State Unit Input),
      Run (step console) (start ⟨fun _ => 0, 0, 0, 0, []⟩) trace s ∧
      s.returns = [((), 1, ['l'.toUInt8]), ((), 2, ['s'.toUInt8, '\n'.toUInt8])] ∧
      ∃ t, Run (step tty) (start Tty.new) trace t ∧ Disciplined s t := by
  obtain ⟨s, hrun, hcheck⟩ := run_of_check (step console) (start (P := Unit) ⟨fun _ => 0, 0, 0, 0, []⟩)
    [.intr ['x'.toUInt8, 'y'.toUInt8, C 'U'.toUInt8], .read () 1 false, .intr ['l'.toUInt8, 's'.toUInt8, 't'.toUInt8],
      .resume () false, .intr [0x7f, '\r'.toUInt8, 0], .resume () false, .read () 5 false]
    (fun s => decide (s.returns = [((), 1, ['l'.toUInt8]), ((), 2, ['s'.toUInt8, '\n'.toUInt8])])) (by decide +kernel)
  obtain ⟨t, hspec, hdisciplined, -⟩ := console_follows_discipline (fun _ => 0) hrun
  exact ⟨_, s, hrun, of_decide_eq_true hcheck, t, hspec, hdisciplined⟩

end Run

end Xv6.Console
