import Xv6.Disk.Ide
import Xv6.Lib.Lock
import Xv6.Lib.Run

/-!
# The IDE driver refines the disk in memory

The queue is a list without duplicates, in the order of the requests, and the disk works on its first element. When
the interrupt of a request is taken, the disk and the buffer become what the atomic `iderw` of `memide.c` makes of
them.
-/

namespace Xv6.Ide

open Lib Proc
open Function (update update_of_ne update_self)

attribute [local simp] State.goto handOver Driver.complete

section Device

variable {b : Buf} {d : Device} {mem : ℕ → Block}

/-- A buffer that callers pass to `iderw`. -/
structure Valid (b : Buf) : Prop where
  busy : b.busy = true
  dev : b.dev = 1
  blockno : b.blockno < FSSIZE

/-- The registers hold the number of the block, whose sectors are as large as the blocks. -/
theorem command_sector (h : Valid b) : (command b).sector = b.blockno := by
  have hlt : b.blockno < 1000 := h.blockno
  have hmask : ∀ n : ℕ, n &&& 0xff = n % 2 ^ 8 := fun n => Nat.and_two_pow_sub_one_eq_mod n 8
  have hhigh : b.blockno / 2 ^ 24 = 0 := Nat.div_eq_of_lt (by omega)
  have hselect : (0xe0 ||| ((1 &&& 1) <<< 4) ||| (0 &&& 0x0f)) % 2 ^ 4 = 0 := by decide
  simp only [Command.sector, command, BSIZE, SECTOR_SIZE, Nat.div_self (by decide : 0 < 512), Nat.mul_one, h.dev,
    hmask, Nat.shiftRight_eq_div_pow, hhigh, hselect]
  omega

/-- The command is for disk 1. -/
theorem command_disk (h : Valid b) : (command b).disk = 1 := by
  have hlt : b.blockno < 1000 := h.blockno
  have hhigh : b.blockno / 2 ^ 24 = 0 := Nat.div_eq_of_lt (by omega)
  simp only [Command.disk, command, BSIZE, SECTOR_SIZE, Nat.div_self (by decide : 0 < 512), Nat.mul_one, h.dev,
    Nat.shiftRight_eq_div_pow, hhigh]
  decide

/-- The disk waits for a command. -/
structure Device.Idle (d : Device) (mem : ℕ → Block) : Prop where
  command : d.command = none
  irq : d.irq = false
  disk : d.disks 1 = mem

/-- The disk works on the request for a buffer. -/
structure Device.Working (d : Device) (b : Buf) (mem : ℕ → Block) : Prop where
  command : d.command = some (Ide.command b)
  irq : d.irq = false
  buffer : b.dirty = true → d.buffer = b.data
  disk : d.disks 1 = mem

/-- The disk has finished the request for a buffer. -/
structure Device.Finished (d : Device) (b : Buf) (mem : ℕ → Block) : Prop where
  command : d.command = none
  irq : d.irq = true
  buffer : b.dirty = false → d.buffer = mem b.blockno
  disk : d.disks 1 = if b.dirty = true then Function.update mem b.blockno b.data else mem

theorem Device.Working.finish (h : d.Working b mem) (hb : Valid b) : (d.finish (Ide.command b)).Finished b mem := by
  unfold Device.finish
  rw [command_sector hb, command_disk hb]
  cases hdirty : b.dirty with
  | false =>
    rw [if_neg (by simp [Ide.command, hdirty])]
    exact ⟨rfl, rfl, fun _ => by rw [← h.disk], by simp [hdirty, h.disk]⟩
  | true =>
    rw [if_pos (by simp [Ide.command, hdirty])]
    refine ⟨rfl, rfl, fun hfalse => by simp [hdirty] at hfalse, ?_⟩
    simp [hdirty, h.disk, h.buffer hdirty]

end Device

namespace Driver

variable {B : Type} {d : Driver B} {queue : List B} {active : Option B} {b : B} {mem : ℕ → Block}

/-- What the disk does. -/
def Serving (d : Driver B) (mem : ℕ → Block) : Option B → Prop
  | none => d.device.Idle mem
  | some b => d.device.Working (d.bufs b) mem ∨ d.device.Finished (d.bufs b) mem

/-- The queue is this list, and the disk serves this buffer of it. The disk of `memide.c` would be `mem`. -/
structure Ok (d : Driver B) (queue : List B) (active : Option B) (mem : ℕ → Block) : Prop where
  chain : Chain d.qnext d.idequeue queue
  nodup : queue.Nodup
  valid : ∀ b ∈ queue, Valid (d.bufs b)
  todo : ∀ b ∈ queue, ¬(d.bufs b).Synced
  enqueued : d.enqueued = d.completed ++ queue
  started : d.started = d.completed ++ active.toList
  serving : d.Serving mem active
  queued : ∀ b ∈ active, b ∈ queue

namespace Ok

theorem idequeue_eq (h : d.Ok queue active mem) : d.idequeue = queue.head? := by
  have hchain := h.chain
  cases queue with
  | nil => exact hchain
  | cons b rest => exact hchain.1

/-- An idle disk starts on a request. -/
theorem idestart (h : d.Ok queue none mem) (hb : b ∈ queue) :
    ∃ d', d.idestart b = some (.ok d') ∧ d'.bufs = d.bufs ∧ d'.completed = d.completed ∧ d'.Ok queue (some b) mem := by
  have hidle : d.device.Idle mem := h.serving
  have hblockno : ¬FSSIZE ≤ (d.bufs b).blockno := Nat.not_le_of_lt (h.valid b hb).blockno
  have hready : ¬d.device.command.isSome = true := by rw [hidle.command]; simp
  have hstart : d.idestart b = some (.ok { d with
      device := { d.device with
        command := some (command (d.bufs b))
        buffer := if (d.bufs b).dirty = true then (d.bufs b).data else d.device.buffer }
      started := d.started ++ [b] }) := by
    rw [Driver.idestart, if_neg hblockno, if_neg (by decide), if_neg hready]
  refine ⟨_, hstart, rfl, rfl, ⟨h.chain, h.nodup, h.valid, h.todo, h.enqueued, ?_, .inl ?_, ?_⟩⟩
  · simp [h.started]
  · exact ⟨rfl, hidle.irq, fun hdirty => if_pos hdirty, hidle.disk⟩
  · rintro c ⟨⟩
    exact hb

/-- The disk starts on the first request of the queue. -/
theorem restart (h : d.Ok queue none mem) :
    ∃ d', d.restart = some (.ok d') ∧ d'.bufs = d.bufs ∧ d'.completed = d.completed ∧ d'.Ok queue queue.head? mem := by
  unfold Driver.restart
  rw [h.idequeue_eq]
  cases queue with
  | nil => exact ⟨d, rfl, rfl, rfl, h⟩
  | cons b rest => exact h.idestart List.mem_cons_self

/-- The disk finishes. -/
theorem finish {c : Command} (h : d.Ok queue active mem) (hc : d.device.command = some c) :
    Driver.Ok { d with device := d.device.finish c } queue active mem := by
  refine ⟨h.chain, h.nodup, h.valid, h.todo, h.enqueued, h.started, ?_, h.queued⟩
  have hserving := h.serving
  cases active with
  | none =>
    rw [hserving.command] at hc
    cases hc
  | some b =>
    rcases hserving with hworking | hfinished
    · rw [hworking.command] at hc
      cases hc
      exact .inr (hworking.finish (h.valid b (h.queued b rfl)))
    · rw [hfinished.command] at hc
      cases hc

variable [DecidableEq B]

/-- A buffer that is not in the queue changes. -/
theorem update (h : d.Ok queue active mem) (hb : b ∉ queue) (buf : Buf) : (d.update b buf).Ok queue active mem := by
  have hbufs : ∀ c ∈ queue, (d.update b buf).bufs c = d.bufs c := by
    intro c hc
    refine update_of_ne ?_ ..
    rintro rfl
    exact hb hc
  refine ⟨h.chain, h.nodup, fun c hc => ?_, fun c hc => ?_, h.enqueued, h.started, ?_, h.queued⟩
  · rw [hbufs c hc]
    exact h.valid c hc
  · rw [hbufs c hc]
    exact h.todo c hc
  have hserving := h.serving
  cases active with
  | none => exact hserving
  | some c =>
    simp only [Driver.Serving, hbufs c (h.queued c rfl)]
    exact hserving

/-- A request is appended to the queue, and the disk is started if it is the only one. -/
theorem enqueue [Fintype B] (h : d.Ok queue queue.head? mem) (hb : b ∉ queue) (hvalid : Valid (d.bufs b))
    (htodo : ¬(d.bufs b).Synced) : ∃ d', d.enqueue b = some (.ok d') ∧ d'.bufs = d.bufs ∧ d'.completed = d.completed ∧
      d'.Ok (queue ++ [b]) (queue ++ [b]).head? mem := by
  have hchain := h.chain.update hb none
  have hlink :
      lastLink (Function.update d.qnext b none) (Fintype.card B + 1) none d.idequeue = some queue.getLast? := by
    rw [lastLink_of_chain hchain (Nat.lt_succ_of_le h.nodup.length_le_card)]
    cases queue.getLast? <;> rfl
  let d₁ : Driver B := { d with
    idequeue := (setLink (Function.update d.qnext b none) d.idequeue queue.getLast? b).1
    qnext := (setLink (Function.update d.qnext b none) d.idequeue queue.getLast? b).2
    enqueued := d.enqueued ++ [b] }
  have happend : d.append b = some d₁ := by
    rw [Driver.append, hlink]
    rfl
  have hhead : d₁.idequeue = (queue ++ [b]).head? := setLink_head hchain b
  have hok : d₁.Ok (queue ++ [b]) queue.head? mem := by
    refine ⟨hchain.append h.nodup hb (update_self ..), ?_, fun c hc => ?_, fun c hc => ?_, ?_, h.started,
      h.serving, fun c hc => List.mem_append_left _ (h.queued c hc)⟩
    · exact h.nodup.append (List.nodup_singleton b) (by simpa using hb)
    · rcases List.mem_append.mp hc with hc | hc
      · exact h.valid c hc
      · rw [List.mem_singleton.mp hc]
        exact hvalid
    · rcases List.mem_append.mp hc with hc | hc
      · exact h.todo c hc
      · rw [List.mem_singleton.mp hc]
        exact htodo
    · change d.enqueued ++ [b] = _
      rw [h.enqueued, List.append_assoc]
  rw [Driver.enqueue, happend, Option.bind_some, hhead]
  cases queue with
  | nil =>
    rw [if_pos (by rfl)]
    exact hok.idestart List.mem_cons_self
  | cons c rest =>
    have hne : (c :: rest ++ [b]).head? ≠ some b := by
      rintro ⟨⟩
      exact hb List.mem_cons_self
    rw [if_neg hne]
    exact ⟨d₁, rfl, rfl, rfl, hok⟩

/-- The interrupt of a request is taken: the disk and the buffer are as after the atomic `iderw`. -/
theorem complete {rest : List B} (h : d.Ok (b :: rest) (some b) mem) (hirq : d.device.irq = true) :
    ∃ mem', MemIde.iderw FSSIZE mem (d.bufs b) = .ok (mem', (d.complete b).bufs b) ∧
      (d.complete b).Ok rest none mem' := by
  have hfinished : d.device.Finished (d.bufs b) mem := by
    rcases h.serving with hworking | hfinished
    · rw [hworking.irq] at hirq
      cases hirq
    · exact hfinished
  have hvalid := h.valid b List.mem_cons_self
  obtain ⟨hb, hnodup⟩ := List.nodup_cons.mp h.nodup
  have hbufs : ∀ c ∈ rest, (d.complete b).bufs c = d.bufs c := by
    intro c hc
    refine update_of_ne ?_ ..
    rintro rfl
    exact hb hc
  refine ⟨d.device.disks 1, ?_, h.chain.2, hnodup, fun c hc => ?_, fun c hc => ?_, ?_, ?_, ?_, by simp⟩
  · rw [MemIde.iderw, if_neg (by simp [hvalid.busy]), if_neg (h.todo b List.mem_cons_self),
      if_neg (by simp [hvalid.dev]), if_neg (Nat.not_le_of_lt hvalid.blockno)]
    have hself : (d.complete b).bufs b = { d.bufs b with
        data := if (d.bufs b).dirty = true then (d.bufs b).data else d.device.buffer
        valid := true
        dirty := false } := update_self ..
    rw [hself, hfinished.disk]
    cases hdirty : (d.bufs b).dirty with
    | false => simp [hfinished.buffer hdirty]
    | true => simp
  · rw [hbufs c hc]
    exact h.valid c (List.mem_cons_of_mem b hc)
  · rw [hbufs c hc]
    exact h.todo c (List.mem_cons_of_mem b hc)
  · change d.enqueued = (d.completed ++ [b]) ++ rest
    rw [h.enqueued, List.append_assoc]
    rfl
  · change d.started = (d.completed ++ [b]) ++ []
    rw [h.started, List.append_nil]
    rfl
  · exact ⟨hfinished.command, rfl, rfl⟩

end Ok

end Driver

/-- The process holds `idelock` at this point of `iderw`. -/
def Point.holds : Point → Bool
  | .test | .sleep | .unlock | .release => true
  | _ => false

attribute [local simp] Point.holds

/-- The process waits for its request. -/
def Point.waits : Point → Bool
  | .enqueue | .release => false
  | _ => true

def holding {B : Type} : Option (Call B) → Bool
  | none => false
  | some (.rw _ point) => point.holds
  | some (.wakeup _) | some .restart => true

/-- An interrupt handler is between two requests. -/
def handling {B : Type} : Option (Call B) → Bool
  | some (.wakeup _) | some .restart => true
  | _ => false

theorem holding_of_handling {B : Type} {call : Option (Call B)} (h : handling call = true) : holding call = true := by
  unfold handling at h
  split at h
  · rfl
  · rfl
  · cases h

/-- A call of `iderw`: before its request is queued, while it is, and after it is completed. Then nothing has happened
to the buffer since. -/
structure CallOk {B : Type} (buf : Buf) (queue : List B) (fresh : B → Prop) (b : B) (point : Point) : Prop where
  valid : Valid buf
  enqueue : point = .enqueue → b ∉ queue ∧ ¬buf.Synced
  waits : point.waits = true → b ∈ queue ∨ buf.Synced ∧ fresh b
  release : point = .release → b ∉ queue ∧ buf.Synced ∧ fresh b

/-- A change that `b` has no part in. -/
theorem CallOk.imp {B : Type} {buf : Buf} {queue queue' : List B} {fresh fresh' : B → Prop} {b : B} {point : Point}
    (h : CallOk buf queue fresh b point) (hqueue : b ∈ queue' ↔ b ∈ queue) (hfresh : fresh b → fresh' b) :
    CallOk buf queue' fresh' b point where
  valid := h.valid
  enqueue heq := by
    rw [hqueue]
    exact h.enqueue heq
  waits heq := by
    rw [hqueue]
    exact (h.waits heq).imp_right (And.imp_right hfresh)
  release heq := by
    rw [hqueue]
    exact (h.release heq).imp_right (And.imp_right hfresh)

variable {P B : Type} {s s' : State P B} {queue : List B} {active : Option B} {mem : ℕ → Block} {p q : P} {b : B}
  {call : Option (Call B)} {point : Point} {fresh : B → Prop}

/-- The invariant. The disk serves the first request of the queue, unless a handler has yet to start it. -/
structure Inv (s : State P B) (queue : List B) (active : Option B) (mem : ℕ → Block) (fresh : B → Prop) : Prop where
  lock : ∀ p, s.lock = some p ↔ holding (s.calls p) = true
  ok : s.driver.Ok queue active mem
  mine : ∀ p q b, s.InCall b p → s.InCall b q → p = q
  queued : ∀ b ∈ queue, ∃ p point, s.calls p = some (.rw b point) ∧ point.waits = true
  calls : ∀ p b point, s.calls p = some (.rw b point) → CallOk (s.driver.bufs b) queue fresh b point
  handled : ∀ p, handling (s.calls p) = true → active = none
  head : (∀ p, handling (s.calls p) = false) → active = queue.head?

namespace Inv

section

variable (h : Inv s queue active mem fresh)

include h

theorem not_handling (hlock : s.lock = none) (p : P) : handling (s.calls p) = false := by
  by_contra hne
  have hheld := (h.lock p).mpr (holding_of_handling (by simpa using hne))
  rw [hlock] at hheld
  cases hheld

/-- With the lock free, the disk serves the first request. -/
theorem head_of_unlocked (hlock : s.lock = none) : active = queue.head? :=
  h.head (h.not_handling hlock)

/-- A buffer that no call is for is not in the queue. -/
theorem not_queued (hb : ∀ q, ¬s.InCall b q) : b ∉ queue := by
  intro hmem
  obtain ⟨p, point, hcall, -⟩ := h.queued b hmem
  exact hb p ⟨point, hcall⟩

theorem lock_eq (hcall : s.calls p = some (.rw b point)) (hpoint : point.holds = true) :
    s.lock = some p := (h.lock p).mpr (by rw [hcall]; exact hpoint)

theorem lock_ne (hcall : s.calls p = some (.rw b point)) (hpoint : point.holds = false) :
    s.lock ≠ some p := fun hlock => by
  have hholds := (h.lock p).mp hlock
  rw [hcall, holding, hpoint] at hholds
  cases hholds

end

variable [DecidableEq P]

section

variable (h : Inv s queue active mem fresh)

include h

/-- One process goes on, and the driver with it. -/
theorem change {queue' : List B} {active' : Option B} {mem' : ℕ → Block} {fresh' : B → Prop}
    (hcalls : s'.calls = update s.calls p call) (hlock : s'.lock = handOver s.lock p (holding call))
    (hfree : holding call = true → s.lock = none ∨ s.lock = some p) (hok : s'.driver.Ok queue' active' mem')
    (hcall : ∀ b point, call = some (.rw b point) →
      CallOk (s'.driver.bufs b) queue' fresh' b point ∧ ∀ q, s.InCall b q → q = p)
    (hothers : ∀ q b point, q ≠ p → s.calls q = some (.rw b point) → CallOk (s'.driver.bufs b) queue' fresh' b point)
    (hqueued : ∀ b ∈ queue', (∃ point, call = some (.rw b point) ∧ point.waits = true) ∨
      b ∈ queue ∧ ∀ point, s.calls p = some (.rw b point) → point.waits = false)
    (hhandled : ∀ q, handling (update s.calls p call q) = true → active' = none)
    (hhead : (∀ q, handling (update s.calls p call q) = false) → active' = queue'.head?) :
    Inv s' queue' active' mem' fresh' := by
  have hself : s'.calls p = call := by rw [hcalls, update_self]
  have hother : ∀ q ≠ p, s'.calls q = s.calls q := fun q hq => by rw [hcalls, update_of_ne hq]
  have hin : ∀ b q, s'.InCall b q → q = p ∨ q ≠ p ∧ s.InCall b q := by
    rintro b q ⟨point, hq⟩
    by_cases hp : q = p
    · exact .inl hp
    · rw [hother q hp] at hq
      exact .inr ⟨hp, point, hq⟩
  refine ⟨fun q => ?_, hok, fun q₁ q₂ b h₁ h₂ => ?_, fun b hb => ?_, fun q b point hq => ?_, hcalls ▸ hhandled,
    hcalls ▸ hhead⟩
  · rw [hcalls, hlock]
    exact handOver_iff h.lock hfree q
  · rcases hin b q₁ h₁ with hp₁ | ⟨hp₁, hin₁⟩ <;> rcases hin b q₂ h₂ with hp₂ | ⟨hp₂, hin₂⟩
    · rw [hp₁, hp₂]
    · obtain ⟨point, hq⟩ := h₁
      rw [hp₁, hself] at hq
      exact absurd ((hcall b point hq).2 q₂ hin₂) hp₂
    · obtain ⟨point, hq⟩ := h₂
      rw [hp₂, hself] at hq
      exact absurd ((hcall b point hq).2 q₁ hin₁) hp₁
    · exact h.mine q₁ q₂ b hin₁ hin₂
  · rcases hqueued b hb with ⟨point, hq, hpoint⟩ | ⟨hmem, hidle⟩
    · exact ⟨p, point, hself.trans hq, hpoint⟩
    · obtain ⟨q, point, hq, hpoint⟩ := h.queued b hmem
      refine ⟨q, point, (hother q ?_).trans hq, hpoint⟩
      rintro rfl
      rw [hidle point hq] at hpoint
      cases hpoint
  · by_cases hp : q = p
    · rw [hp, hself] at hq
      exact (hcall b point hq).1
    · rw [hother q hp] at hq
      exact hothers q b point hp hq

/-- One process goes on; the driver is the same. -/
theorem move (hcalls : s'.calls = update s.calls p call) (hdriver : s'.driver = s.driver)
    (hlock : s'.lock = handOver s.lock p (holding call))
    (hfree : holding call = true → s.lock = none ∨ s.lock = some p) (hhandling : handling call = handling (s.calls p))
    (hcall : ∀ b point, call = some (.rw b point) → CallOk (s.driver.bufs b) queue fresh b point ∧
      ∀ q, s.InCall b q → q = p)
    (hwaits : ∀ b point, s.calls p = some (.rw b point) → point.waits = true → b ∈ queue →
      ∃ point', call = some (.rw b point') ∧ point'.waits = true) : Inv s' queue active mem fresh := by
  have hhandles : ∀ q, handling (update s.calls p call q) = handling (s.calls q) := by
    intro q
    by_cases hq : q = p
    · rw [hq, update_self, hhandling]
    · rw [update_of_ne hq]
  refine h.change hcalls hlock hfree (hdriver ▸ h.ok) (hdriver ▸ hcall) (fun q b point _ => hdriver ▸ h.calls q b point)
    (fun b hb => ?_) (fun q hq => h.handled q (hhandles q ▸ hq)) fun hq => h.head fun q => hhandles q ▸ hq q
  by_cases hidle : ∀ point, s.calls p = some (.rw b point) → point.waits = false
  · exact .inr ⟨hb, hidle⟩
  · push Not at hidle
    obtain ⟨point, hq, hpoint⟩ := hidle
    exact .inl (hwaits b point hq (by simpa using hpoint) hb)

variable {point' : Point}

/-- A process goes on in its call. -/
theorem moveRw (hcall : s.calls p = some (.rw b point)) (hcalls : s'.calls = update s.calls p (some (.rw b point')))
    (hdriver : s'.driver = s.driver) (hlock : s'.lock = handOver s.lock p point'.holds)
    (hfree : point'.holds = true → s.lock = none ∨ s.lock = some p)
    (hok : CallOk (s.driver.bufs b) queue fresh b point') (hwaits : b ∈ queue → point'.waits = true) :
    Inv s' queue active mem fresh := by
  refine h.move hcalls hdriver hlock hfree (by rw [hcall]; rfl) (fun c point₁ heq => ?_) fun c point₁ heq _ hc => ?_
  · obtain ⟨rfl, rfl⟩ := Call.rw.inj (Option.some.inj heq)
    exact ⟨hok, fun q hq => h.mine q p b hq ⟨point, hcall⟩⟩
  · obtain ⟨rfl, rfl⟩ := Call.rw.inj (Option.mem_unique hcall heq)
    exact ⟨point', rfl, hwaits hc⟩

/-- A process that waits for its request goes on, and still waits. -/
theorem moveWaits (hcall : s.calls p = some (.rw b point)) (hcalls : s'.calls = update s.calls p (some (.rw b point')))
    (hdriver : s'.driver = s.driver) (hlock : s'.lock = handOver s.lock p point'.holds)
    (hfree : point'.holds = true → s.lock = none ∨ s.lock = some p) (hpoint : point.waits = true)
    (hpoint' : point'.waits = true) : Inv s' queue active mem fresh := by
  have hok := h.calls p b point hcall
  refine h.moveRw hcall hcalls hdriver hlock hfree ⟨hok.valid, ?_, fun _ => hok.waits hpoint, ?_⟩ fun _ => hpoint'
  · rintro rfl
    cases hpoint'
  · rintro rfl
    cases hpoint'

variable [DecidableEq B]

/-- A request is queued. -/
theorem enqueue [Fintype B] (hcall : s.calls p = some (.rw b .enqueue)) (hfree : s.lock = none) :
    ∃ d, s.driver.enqueue b = some (.ok d) ∧ d.bufs = s.driver.bufs ∧
      d.completed = s.driver.completed ∧
      Inv ({ s with lock := some p, driver := d }.goto p (some (.rw b .test))) (queue ++ [b]) (queue ++ [b]).head?
      mem fresh := by
  have hok := h.calls p b .enqueue hcall
  obtain ⟨hb, htodo⟩ := hok.enqueue rfl
  have hactive := h.head_of_unlocked hfree
  subst hactive
  obtain ⟨d, hd, hbufs, hcompleted, hdok⟩ := h.ok.enqueue hb hok.valid htodo
  refine ⟨d, hd, hbufs, hcompleted, ?_⟩
  refine h.change rfl rfl (fun _ => .inl hfree) hdok (fun c point heq => ?_) (fun q c point hp hq => ?_)
    (fun c hc => ?_) (fun q hq => ?_) fun _ => rfl
  · obtain ⟨rfl, rfl⟩ := Call.rw.inj (Option.some.inj heq)
    exact ⟨hbufs ▸ ⟨hok.valid, nofun, fun _ => .inl (by simp), nofun⟩, fun q hq => h.mine q p b hq ⟨_, hcall⟩⟩
  · have hcb : c ≠ b := by
      rintro rfl
      exact hp (h.mine q p c ⟨_, hq⟩ ⟨_, hcall⟩)
    exact hbufs ▸ (h.calls q c point hq).imp (by simp [hcb]) id
  · rcases List.mem_append.mp hc with hc | hc
    · refine .inr ⟨hc, fun point hq => ?_⟩
      obtain ⟨rfl, rfl⟩ := Call.rw.inj (Option.mem_unique hcall hq)
      rfl
    · rw [List.mem_singleton.mp hc]
      exact .inl ⟨.test, rfl, rfl⟩
  · by_cases hp : q = p
    · rw [hp, update_self] at hq
      cases hq
    · rw [update_of_ne hp, h.not_handling hfree q] at hq
      cases hq

end

variable [DecidableEq B]

/-- The interrupt of the first request is taken. -/
theorem complete {rest : List B} (h : Inv s (b :: rest) active mem fresh) (hcall : s.calls p = none)
    (hfree : s.lock = none)
    (hirq : s.driver.device.irq = true) : ∃ mem',
      MemIde.iderw FSSIZE mem (s.driver.bufs b) = .ok (mem', (s.driver.complete b).bufs b) ∧
      Inv ({ s with lock := some p, driver := s.driver.complete b }.goto p (some (.wakeup b))) rest none mem'
      fun c => c = b ∨ fresh c := by
  have hactive := h.head_of_unlocked hfree
  subst hactive
  obtain ⟨mem', hmem, hdok⟩ := h.ok.complete hirq
  refine ⟨mem', hmem, ?_⟩
  have hsynced : ((s.driver.complete b).bufs b).Synced := by simp [Buf.Synced]
  have hvalid : Valid ((s.driver.complete b).bufs b) := by
    have hold := h.ok.valid b List.mem_cons_self
    simpa using ⟨hold.busy, hold.dev, hold.blockno⟩
  refine h.change rfl rfl (fun _ => .inl hfree) hdok nofun (fun q c point _ hq => ?_) (fun c hc => ?_)
    (fun _ _ => rfl) fun hq => ?_
  · change CallOk ((s.driver.complete b).bufs c) _ _ _ _
    have hold := h.calls q c point hq
    by_cases hcb : c = b
    · subst hcb
      refine ⟨hvalid, fun heq => ?_, fun _ => .inr ⟨hsynced, .inl rfl⟩, fun heq => ?_⟩
      · exact absurd List.mem_cons_self (hold.enqueue heq).1
      · exact absurd List.mem_cons_self (hold.release heq).1
    have hbufs : (s.driver.complete b).bufs c = s.driver.bufs c := update_of_ne hcb ..
    rw [hbufs]
    exact hold.imp (by simp [hcb]) .inr
  · refine .inr ⟨List.mem_cons_of_mem b hc, fun point hq => ?_⟩
    rw [hcall] at hq
    cases hq
  · have hfalse := hq p
    rw [update_self] at hfalse
    cases hfalse

omit [DecidableEq B] in
/-- The handler starts the disk on the next request, and returns. -/
theorem restart (h : Inv s queue active mem fresh) (hcall : s.calls p = some .restart) :
    ∃ d, s.driver.restart = some (.ok d) ∧ d.bufs = s.driver.bufs ∧ d.completed = s.driver.completed ∧
      Inv ({ s with lock := none, driver := d }.goto p none) queue queue.head? mem fresh := by
  have hactive := h.handled p (by rw [hcall]; rfl)
  subst hactive
  obtain ⟨d, hd, hbufs, hcompleted, hdok⟩ := h.ok.restart
  refine ⟨d, hd, hbufs, hcompleted, ?_⟩
  have hlock : s.lock = some p := (h.lock p).mpr (by rw [hcall]; rfl)
  refine h.change rfl (by simp [holding, hlock]) nofun hdok nofun
    (fun q c point _ hq => hbufs ▸ h.calls q c point hq) (fun c hc => .inr ⟨hc, fun point hq => ?_⟩) (fun q hq => ?_)
    fun _ => rfl
  · rw [hcall] at hq
    cases hq
  · -- only one handler holds the lock
    have hne : q ≠ p := by
      rintro rfl
      rw [update_self] at hq
      cases hq
    rw [update_of_ne hne] at hq
    have hlock' := (h.lock q).mpr (holding_of_handling hq)
    rw [hlock] at hlock'
    exact absurd (Option.some.inj hlock').symm hne

end Inv

/-- Process `p` goes on in `iderw(b)`. -/
theorem Inv.run [DecidableEq P] [DecidableEq B] [Fintype B] (h : Inv s queue active mem fresh)
    (hcall : s.calls p = some (.rw b point)) (hrun : s.run p b point = some (.ok s')) :
    (∃ queue active, Inv s' queue active mem fresh) ∧ s'.driver.bufs = s.driver.bufs ∧
      s'.driver.completed = s.driver.completed := by
  have hok := h.calls p b point hcall
  cases point with
  | enqueue =>
    simp only [State.run, Option.ite_none_right_eq_some] at hrun
    obtain ⟨hfree, hrun⟩ := hrun
    obtain ⟨d, hd, hbufs, hcompleted, hinv⟩ := h.enqueue hcall hfree
    rw [hd] at hrun
    cases hrun
    exact ⟨⟨_, _, hinv⟩, hbufs, hcompleted⟩
  | test =>
    have hlock := h.lock_eq hcall rfl
    simp only [State.run] at hrun
    split_ifs at hrun with hsynced
    · cases hrun
      have hb : b ∉ queue := fun hb => h.ok.todo b hb hsynced
      refine ⟨⟨queue, active, h.moveRw hcall rfl rfl ?_ (fun _ => .inr hlock)
        ⟨hok.valid, nofun, nofun, fun _ => ⟨hb, (hok.waits rfl).resolve_left hb⟩⟩ fun hmem => absurd hmem hb⟩, rfl, rfl⟩
      exact hlock
    · cases hrun
      exact ⟨⟨queue, active, h.moveWaits hcall rfl rfl hlock (fun _ => .inr hlock) rfl rfl⟩, rfl, rfl⟩
  | sleep =>
    have hlock := h.lock_eq hcall rfl
    simp only [State.run, enabled_ok_iff] at hrun
    obtain ⟨-, rfl⟩ := hrun
    exact ⟨⟨queue, active, h.moveWaits hcall rfl rfl hlock (fun _ => .inr hlock) rfl rfl⟩, rfl, rfl⟩
  | unlock =>
    have hlock := h.lock_eq hcall rfl
    cases hrun
    refine ⟨⟨queue, active, h.moveWaits hcall rfl rfl ?_ nofun rfl rfl⟩, rfl, rfl⟩
    simp [hlock]
  | sched | resume =>
    have hlock := h.lock_ne hcall rfl
    cases hrun
    refine ⟨⟨queue, active, h.moveWaits hcall rfl rfl ?_ nofun rfl rfl⟩, rfl, rfl⟩
    simp [hlock, State.setProc]
  | asleep =>
    have hlock := h.lock_ne hcall rfl
    simp only [State.run, enabled_ok_iff] at hrun
    obtain ⟨-, rfl⟩ := hrun
    refine ⟨⟨queue, active, h.moveWaits hcall rfl rfl ?_ nofun rfl rfl⟩, rfl, rfl⟩
    simp [hlock, State.setProc]
  | relock =>
    simp only [State.run, enabled_ok_iff] at hrun
    obtain ⟨hfree, rfl⟩ := hrun
    exact ⟨⟨queue, active, h.moveWaits hcall rfl rfl rfl (fun _ => .inl hfree) rfl rfl⟩, rfl, rfl⟩
  | release =>
    have hlock := h.lock_eq hcall rfl
    cases hrun
    refine ⟨⟨queue, active, h.move rfl rfl ?_ nofun (by rw [hcall]; rfl) nofun fun c point hc hpoint hmem => ?_⟩,
      rfl, rfl⟩
    · simp [holding, hlock]
    · obtain ⟨rfl, rfl⟩ := Call.rw.inj (Option.mem_unique hcall hc)
      cases hpoint

/-- How a step looks from the disk in memory: nothing happens, or a buffer changes, or one is synced. -/
inductive Simulates [DecidableEq B] (mem mem' : ℕ → Block) (fresh fresh' : B → Prop) (d d' : Driver B) :
    Option (B × Buf) → Prop
  | keep (hmem : mem' = mem) (hfresh : fresh' = fresh) (hbufs : d'.bufs = d.bufs)
    (hcompleted : d'.completed = d.completed) : Simulates mem mem' fresh fresh' d d' none
  | update (b : B) (buf : Buf) (hmem : mem' = mem) (hfresh : fresh' = fun c => c ≠ b ∧ fresh c)
    (hbufs : d'.bufs = Function.update d.bufs b buf) (hcompleted : d'.completed = d.completed) :
    Simulates mem mem' fresh fresh' d d' (some (b, buf))
  | sync (b : B) (buf : Buf) (hsync : MemIde.iderw FSSIZE mem (d.bufs b) = .ok (mem', buf))
    (hfresh : fresh' = fun c => c = b ∨ fresh c) (hbufs : d'.bufs = Function.update d.bufs b buf)
    (hcompleted : d'.completed = d.completed ++ [b]) : Simulates mem mem' fresh fresh' d d' none

variable {a : Action P B}

theorem Inv.step [DecidableEq P] [DecidableEq B] [Fintype P] [Fintype B] (h : Inv s queue active mem fresh)
    (hstep : step s a = some (.ok s')) : ∃ queue' active' mem' fresh', Inv s' queue' active' mem' fresh' ∧
      Simulates mem mem' fresh fresh' s.driver s'.driver a.change := by
  cases a with
  | iderw p b =>
    simp only [Ide.step, enabled_iff] at hstep
    obtain ⟨⟨hcall, hcalls, hdev, hblockno⟩, hrw⟩ := hstep
    unfold State.iderw at hrw
    split_ifs at hrw with hbusy hsynced hdisk
    cases hrw
    have hlock : s.lock ≠ some p := fun hlock => by
      have hholds := (h.lock p).mp hlock
      rw [hcall] at hholds
      cases hholds
    have hok : CallOk (s.driver.bufs b) queue fresh b .enqueue :=
      ⟨⟨by simpa using hbusy, hdev, hblockno⟩, fun _ => ⟨h.not_queued hcalls, hsynced⟩, nofun, nofun⟩
    refine ⟨queue, active, mem, fresh, h.move rfl rfl ?_ nofun (by rw [hcall]; rfl) (fun c point heq => ?_)
      fun c point heq => ?_, .keep rfl rfl rfl rfl⟩
    · simp [holding, hlock]
    · obtain ⟨rfl, rfl⟩ := Call.rw.inj (Option.some.inj heq)
      exact ⟨hok, fun q hq => absurd hq (hcalls q)⟩
    · rw [hcall] at heq
      cases heq
  | run p =>
    simp only [Ide.step] at hstep
    split at hstep
    · cases hstep
    · next b point hcall =>
      obtain ⟨⟨queue', active', hinv⟩, hbufs, hcompleted⟩ := h.run hcall hstep
      exact ⟨queue', active', mem, fresh, hinv, .keep rfl rfl hbufs hcompleted⟩
    · next b hcall =>
      simp only [enabled_ok_iff] at hstep
      obtain ⟨-, rfl⟩ := hstep
      have hlock : s.lock = some p := (h.lock p).mpr (by rw [hcall]; rfl)
      refine ⟨queue, active, mem, fresh, h.move rfl rfl hlock (fun _ => .inr hlock) (by rw [hcall]; rfl)
        (by simp) fun c point heq => ?_, .keep rfl rfl rfl rfl⟩
      rw [hcall] at heq
      cases heq
    · next hcall =>
      obtain ⟨d, hd, hbufs, hcompleted, hinv⟩ := h.restart hcall
      rw [hd] at hstep
      cases hstep
      exact ⟨queue, queue.head?, mem, fresh, hinv, .keep rfl rfl hbufs hcompleted⟩
  | interrupt p =>
    simp only [Ide.step, State.ideintr, Option.ite_none_right_eq_some] at hstep
    obtain ⟨hcall, hfree, hstep⟩ := hstep
    have hhead := h.ok.idequeue_eq
    cases queue with
    | nil =>
      rw [hhead] at hstep
      cases hstep
      exact ⟨[], active, mem, fresh, h, .keep rfl rfl rfl rfl⟩
    | cons b rest =>
      rw [hhead] at hstep
      simp only [List.head?_cons, enabled_ok_iff] at hstep
      obtain ⟨hirq, rfl⟩ := hstep
      obtain ⟨mem', hmem, hinv⟩ := h.complete hcall hfree hirq
      refine ⟨rest, none, mem', _, hinv, .sync b _ hmem rfl ?_ rfl⟩
      simp
  | finish =>
    simp only [Ide.step] at hstep
    cases hc : s.driver.device.command with
    | none => simp [hc] at hstep
    | some c =>
      rw [hc] at hstep
      cases hstep
      exact ⟨queue, active, mem, fresh, ⟨h.lock, h.ok.finish hc, h.mine, h.queued, h.calls, h.handled, h.head⟩,
        .keep rfl rfl rfl rfl⟩
  | update b buf =>
    simp only [Ide.step, enabled_ok_iff] at hstep
    obtain ⟨hcalls, rfl⟩ := hstep
    have hb := h.not_queued hcalls
    refine ⟨queue, active, mem, _, ⟨h.lock, h.ok.update hb buf, h.mine, h.queued, fun q c point hq => ?_, h.handled,
      h.head⟩, .update b buf rfl rfl rfl rfl⟩
    have hcb : c ≠ b := by
      rintro rfl
      exact hcalls q ⟨point, hq⟩
    have hbufs : (s.driver.update b buf).bufs c = s.driver.bufs c := update_of_ne hcb ..
    rw [hbufs]
    exact (h.calls q c point hq).imp .rfl fun hfresh => ⟨hcb, hfresh⟩
  | kill pid =>
    simp only [Ide.step, enabled_ok_iff] at hstep
    obtain ⟨-, rfl⟩ := hstep
    exact ⟨queue, active, mem, fresh, ⟨h.lock, h.ok, h.mine, h.queued, h.calls, h.handled, h.head⟩,
      .keep rfl rfl rfl rfl⟩

/-- The driver and the disk in memory, after the same requests. -/
structure Matches [DecidableEq B] (start : MemIde.State B) (trace : List (Action P B)) (s : State P B)
    (queue : List B) (active : Option B) (mem : ℕ → Block) (memTrace : List (MemIde.Action B)) : Prop where
  inv : Inv s queue active mem (MemIde.LastSynced memTrace)
  run : Run (MemIde.step FSSIZE) start memTrace ⟨mem, s.driver.bufs⟩
  synced : MemIde.synced memTrace = s.driver.completed
  changes : memTrace.filterMap (·.change) = trace.filterMap (·.change)

theorem Inv.weaken {fresh' : B → Prop} (h : Inv s queue active mem fresh) (himp : ∀ b, fresh b → fresh' b) :
    Inv s queue active mem fresh' where
  lock := h.lock
  ok := h.ok
  mine := h.mine
  queued := h.queued
  calls p b point hcall := (h.calls p b point hcall).imp .rfl (himp b)
  handled := h.handled
  head := h.head

/-- Every step of the driver is a step of the disk in memory, or none. -/
theorem Matches.step [DecidableEq P] [DecidableEq B] [Fintype P] [Fintype B] {start : MemIde.State B}
    {trace : List (Action P B)} {memTrace : List (MemIde.Action B)}
    (h : Matches start trace s queue active mem memTrace) (hstep : Ide.step s a = some (.ok s')) :
    ∃ queue' active' mem' memTrace', Matches start (trace ++ [a]) s' queue' active' mem' memTrace' := by
  obtain ⟨queue', active', mem', fresh', hinv, hsim⟩ := h.inv.step hstep
  generalize hchange : a.change = change at hsim
  have hchanges (c : List (MemIde.Action B)) (hc : c.filterMap (·.change) = change.toList) :
      (memTrace ++ c).filterMap (·.change) = (trace ++ [a]).filterMap (·.change) := by
    rw [List.filterMap_append, List.filterMap_append, h.changes, hc, ← hchange]
    cases ha : a.change <;> simp [ha]
  cases hsim with
  | keep hmem hfresh hbufs hcompleted =>
    subst hmem hfresh
    exact ⟨queue', active', mem', memTrace, hinv, hbufs ▸ h.run, hcompleted ▸ h.synced,
      by simpa using hchanges [] rfl⟩
  | update b buf hmem hfresh hbufs hcompleted =>
    subst hmem hfresh
    refine ⟨queue', active', mem', memTrace ++ [.update b buf], hinv.weaken fun c hc => ?_, h.run.snoc ?_, ?_,
      hchanges _ rfl⟩
    · exact hc.2.snoc hc.1.symm
    · rw [hbufs]
      rfl
    · rw [hcompleted, ← h.synced]
      simp [MemIde.synced]
  | sync b buf hsync hfresh hbufs hcompleted =>
    subst hfresh
    refine ⟨queue', active', mem', memTrace ++ [.iderw b], hinv.weaken fun c hc => ?_, h.run.snoc ?_, ?_,
      hchanges _ rfl⟩
    · by_cases hcb : c = b
      · exact hcb ▸ MemIde.LastSynced.iderw memTrace c
      · exact (hc.resolve_left hcb).snoc (Ne.symm hcb)
    · simp only [MemIde.step, hsync, hbufs]
      rfl
    · rw [hcompleted, ← h.synced]
      simp [MemIde.synced]

theorem Matches.init [DecidableEq B] (bufs : B → Buf) (qnext : B → Option B) (havedisk1 : Bool)
    (disks : ℕ → ℕ → Block) (buffer : Block) :
    Matches ⟨disks 1, bufs⟩ [] (State.init bufs qnext havedisk1 disks buffer : State P B) [] none (disks 1) [] where
  inv :=
    { lock := fun p => by simp [State.init, holding]
      ok := ⟨rfl, List.nodup_nil, nofun, nofun, rfl, rfl, ⟨rfl, rfl, rfl⟩, nofun⟩
      mine := fun p q b ⟨_, hp⟩ => by cases hp
      queued := nofun
      calls := fun p b point hcall => by cases hcall
      handled := fun _ _ => rfl
      head := fun _ => rfl }
  run := .nil
  synced := rfl
  changes := rfl

/-- The driver refines the disk in memory. After any run the queue is a list without duplicates; the disk serves
its first buffer and no other, unless a handler that holds `idelock` is about to start it; requests are started
and completed once, in the order in which they were queued. The buffers are those of a run of the disk in memory
that syncs the completed requests in that order and makes the changes that the run makes between calls. A call of
`iderw` that returns has its buffer valid and not dirty, and as the atomic `iderw` left it. -/
theorem ide_refines_memide [DecidableEq P] [DecidableEq B] [Fintype P] [Fintype B] (bufs : B → Buf)
    (qnext : B → Option B) (havedisk1 : Bool) (disks : ℕ → ℕ → Block) (buffer : Block) {trace : List (Action P B)}
    (h : Run step (State.init bufs qnext havedisk1 disks buffer) trace s) : ∃ queue active mem memTrace,
      (Chain s.driver.qnext s.driver.idequeue queue ∧ queue.Nodup) ∧
      (s.driver.Serving mem active ∧
        (active = queue.head? ∨ active = none ∧ ∃ p, s.lock = some p ∧ handling (s.calls p) = true)) ∧
      (s.driver.enqueued = s.driver.completed ++ queue ∧ s.driver.started = s.driver.completed ++ active.toList) ∧
      (Run (MemIde.step FSSIZE) ⟨disks 1, bufs⟩ memTrace ⟨mem, s.driver.bufs⟩ ∧
        MemIde.synced memTrace = s.driver.completed ∧
        memTrace.filterMap (·.change) = trace.filterMap (·.change)) ∧
      ∀ p b, s.calls p = some (.rw b .release) →
        b ∉ queue ∧ (s.driver.bufs b).Synced ∧ MemIde.LastSynced memTrace b := by
  have hmatches : ∃ queue active mem memTrace, Matches ⟨disks 1, bufs⟩ trace s queue active mem memTrace := by
    refine Run.invariant (P := fun trace u => ∃ queue active mem memTrace,
        Matches ⟨disks 1, bufs⟩ trace u queue active mem memTrace)
      ⟨_, _, _, _, .init bufs qnext havedisk1 disks buffer⟩ (fun _ _ _ _ _ hu hstep => ?_) h
    obtain ⟨queue, active, mem, memTrace, hmatches⟩ := hu
    exact hmatches.step hstep
  obtain ⟨queue, active, mem, memTrace, hinv, hrun, hsynced, hchanges⟩ := hmatches
  have hok := hinv.ok
  refine ⟨queue, active, mem, memTrace, ⟨hok.chain, hok.nodup⟩, ⟨hok.serving, ?_⟩, ⟨hok.enqueued, hok.started⟩,
    ⟨hrun, hsynced, hchanges⟩, fun p b hcall => (hinv.calls p b .release hcall).release rfl⟩
  by_cases hhandling : ∀ p, handling (s.calls p) = false
  · exact .inl (hinv.head hhandling)
  · obtain ⟨p, hp⟩ := not_forall.mp hhandling
    have hp : handling (s.calls p) = true := by simpa using hp
    exact .inr ⟨hinv.handled p hp, p, (hinv.lock p).mpr (holding_of_handling hp), hp⟩

/-- A buffer of block 5. -/
def ofByte (dirty : Bool) (byte : UInt8) : Buf :=
  { busy := true, valid := false, dirty, dev := 1, blockno := 5, data := fun _ => byte }

/-- Process 0 fills a buffer and writes it to block 5, and process 1 reads the block into another buffer. Process 2
takes the interrupts. -/
def writeThenRead : List (Action (Fin 3) (Fin 2)) :=
  [Action.update 0 (ofByte true 97), .iderw 0 0] ++ List.replicate 5 (Action.run 0) ++ [Action.iderw 1 1] ++
    List.replicate 5 (Action.run 1) ++
    [Action.finish, .interrupt 2, .run 2, .run 2, .finish, .interrupt 2, .run 2, .run 2] ++
    List.replicate 4 (Action.run 1)

theorem ide_refines_memide_write_then_read : ∃ s : State (Fin 3) (Fin 2),
    s.driver.completed = [0, 1] ∧ (s.driver.bufs 1).data 0 = 97 ∧ (s.driver.bufs 1).Synced ∧
      ∃ mem memTrace, Run (MemIde.step FSSIZE) ⟨fun _ _ => 0, fun _ => ofByte false 0⟩ memTrace ⟨mem, s.driver.bufs⟩ ∧
        MemIde.synced memTrace = [0, 1] ∧ memTrace.filterMap (·.change) = [(0, ofByte true 97)] := by
  obtain ⟨s, hrun, hcheck⟩ := run_of_check step
    (State.init (fun _ => ofByte false 0) (fun _ => none) true (fun _ _ _ => 0) fun _ => 0)
    writeThenRead (fun s => s.driver.completed = [0, 1] ∧ (s.driver.bufs 1).data 0 = 97 ∧
      s.calls 1 = some (.rw 1 .release)) (by decide +kernel)
  obtain ⟨hcompleted, hdata, hcall⟩ := of_decide_eq_true hcheck
  obtain ⟨queue, active, mem, memTrace, -, -, -, ⟨hmem, hsynced, hchanges⟩, hreturn⟩ :=
    ide_refines_memide _ _ _ _ _ hrun
  exact ⟨s, hcompleted, hdata, (hreturn 1 1 hcall).2.1, mem, memTrace, hmem, by rw [hsynced, hcompleted],
    hchanges.trans rfl⟩

end Xv6.Ide
