import Xv6.Param

/-!
# Buffers and the disk in memory

`struct buf`, without the links of its lists, and the driver of `memide.c`, whose disk is an array of blocks.
-/

namespace Xv6

/-- A buffer. Its flags are `B_BUSY`, `B_VALID` and `B_DIRTY`. -/
structure Buf where
  /-- Buffer is locked by some process. -/
  busy : Bool
  /-- Buffer has been read from disk. -/
  valid : Bool
  /-- Buffer needs to be written to disk. -/
  dirty : Bool
  dev : ℕ
  blockno : ℕ
  data : Block

/-- The buffer is in sync with the disk: `(b->flags & (B_VALID|B_DIRTY)) == B_VALID`. -/
def Buf.Synced (b : Buf) : Prop := b.valid = true ∧ b.dirty = false

instance (b : Buf) : Decidable b.Synced := inferInstanceAs (Decidable (_ ∧ _))

namespace MemIde

/-- Sync buf with disk. If `B_DIRTY` is set, write buf to disk, clear `B_DIRTY`, set `B_VALID`.
Else if `B_VALID` is not set, read buf from disk, set `B_VALID`. -/
def iderw (disksize : ℕ) (memdisk : ℕ → Block) (b : Buf) : Except Panic ((ℕ → Block) × Buf) :=
  if b.busy = false then .error "iderw: buf not busy"
  else if b.Synced then .error "iderw: nothing to do"
  else if b.dev ≠ 1 then .error "iderw: request not for disk 1"
  else if disksize ≤ b.blockno then .error "iderw: block out of range"
  else if b.dirty = true then
    .ok (Function.update memdisk b.blockno b.data, { b with dirty := false, valid := true })
  else .ok (memdisk, { b with data := memdisk b.blockno, valid := true })

/-- What a call of `iderw` that returns was given, and what it did. -/
theorem iderw_ok {disksize : ℕ} {memdisk : ℕ → Block} {b : Buf} {r : (ℕ → Block) × Buf}
    (h : iderw disksize memdisk b = .ok r) : b.dev = 1 ∧ b.blockno < disksize ∧ r =
      if b.dirty = true then (Function.update memdisk b.blockno b.data, { b with dirty := false, valid := true })
      else (memdisk, { b with data := memdisk b.blockno, valid := true }) := by
  unfold iderw at h
  split at h
  · cases h
  split at h
  · cases h
  split at h
  · cases h
  split at h
  · cases h
  · next hdev hrange =>
    refine ⟨not_not.mp hdev, not_le.mp hrange, ?_⟩
    split at h <;> next hdirty => simp only [hdirty, if_true, if_false, ← Except.ok.inj h, reduceCtorEq]

/-- The disk and the buffers. -/
structure State (B : Type) where
  memdisk : ℕ → Block
  bufs : B → Buf

/-- A buffer is synced with the disk, or changes between calls. -/
inductive Action (B : Type)
  | iderw (b : B)
  | update (b : B) (buf : Buf)

/-- One step: `iderw` is atomic. -/
def step {B : Type} [DecidableEq B] (disksize : ℕ) (s : State B) : Action B → Option (Except Panic (State B))
  | .iderw b => some ((iderw disksize s.memdisk (s.bufs b)).map fun r =>
    { memdisk := r.1, bufs := Function.update s.bufs b r.2 })
  | .update b buf => some (.ok { s with bufs := Function.update s.bufs b buf })

/-- The buffer that an action is about. -/
def Action.buf {B : Type} : Action B → B
  | .iderw b | .update b _ => b

/-- The last thing that happened to the buffer is that it was synced with the disk. -/
def LastSynced {B : Type} (trace : List (Action B)) (b : B) : Prop :=
  ∃ before after, trace = before ++ .iderw b :: after ∧ ∀ a ∈ after, a.buf ≠ b

theorem LastSynced.iderw {B : Type} (trace : List (Action B)) (b : B) : LastSynced (trace ++ [.iderw b]) b :=
  ⟨trace, [], rfl, nofun⟩

theorem LastSynced.snoc {B : Type} {trace : List (Action B)} {b : B} {a : Action B} (h : LastSynced trace b)
    (ha : a.buf ≠ b) : LastSynced (trace ++ [a]) b := by
  obtain ⟨before, after, rfl, hafter⟩ := h
  refine ⟨before, after ++ [a], by simp, fun a' hmem => ?_⟩
  rcases List.mem_append.mp hmem with hmem | hmem
  · exact hafter a' hmem
  · rw [List.mem_singleton.mp hmem]
    exact ha

/-- The buffers synced by a sequence of actions. -/
def synced {B : Type} (trace : List (Action B)) : List B :=
  trace.filterMap fun
    | .iderw b => some b
    | .update .. => none

/-- The change that an action makes to a buffer between calls. -/
def Action.change {B : Type} : Action B → Option (B × Buf)
  | .iderw _ => none
  | .update b buf => some (b, buf)

end MemIde

end Xv6
