import Xv6.Lib.Lock
import Xv6.Lib.Ring
import Xv6.Pipe.Model

/-!
# A pipe is a lossless queue

The bytes that reads return, one read after the other, are those that writes store, in the same order. The lock of
the pipe makes the local view of a call agree with the pipe; the ring buffer does not depend on how often its counters
have wrapped around.
-/

namespace Xv6.Pipe

open Proc Lib
open Function (update update_self update_of_ne)

variable {P : Type} {s s' : State P} {p q : P} {op op' : Op} {point point' : Point}

attribute [local simp] handOver

/-- The process holds the lock of the pipe. -/
def Point.holds : Point → Bool
  | .acquire | .sched | .asleep | .resume => false
  | _ => true

attribute [local simp] Point.holds

/-- The process of a call holds the lock. -/
def holding : Option (Op × Point) → Bool
  | none => false
  | some (_, point) => point.holds

/-- The bytes that a call has copied so far. -/
def inHand : Option (Op × Point) → List UInt8
  | some (.read _ addr, _) => addr
  | _ => []

/-- The bytes that a call returned. -/
def returnedBytes : Op × ℤ → List UInt8
  | (.read _ addr, r) => if 0 ≤ r then addr else []
  | _ => []

namespace State

/-- The bytes that calls have returned, in order. -/
def returned (s : State P) : List UInt8 := s.returns.flatMap returnedBytes

/-- The bytes read from the pipe: those returned, and those of the call that holds the lock. -/
def taken (s : State P) : List UInt8 := s.returned ++ (s.lock.elim [] fun p => inHand (s.calls p))

end State

/-- The first `i` bytes of `addr` are at the given places of the sequence, in order. -/
def Written (stored : List UInt8) (addr : ℕ → UInt8) (i : ℕ) (places : List ℕ) : Prop :=
  places.Pairwise (· < ·) ∧ places.map (fun k => stored[k]?) = (List.range i).map fun k => some (addr k)

/-- What is known at a point of a call. Only a process that holds the lock knows anything about the pipe. -/
def CallOk (s : State P) : Op → Point → Prop
  | .write n addr i places, point =>
    (i ≤ n.toNat ∧ Written s.stored addr i places) ∧
      match point with
      | .wait => (i : ℤ) < n
      | .copy => False
      | .finish => n ≤ i
      | .release r => r = n → n ≤ i
      | _ => True
  | .read n addr, point =>
    match point with
    | .copy => addr = [] → s.empty → s.writeopen = false
    | .finish => addr = [] → 0 < n → s.empty ∧ s.writeopen = false
    | .release r => (0 ≤ r → r = addr.length) ∧ (r < 0 → addr = []) ∧ (r = 0 → 0 < n → s.empty ∧ s.writeopen = false)
    | _ => addr = []
  | .close _, _ => True

/-- The invariant of the pipe and its users. -/
structure Inv (s : State P) : Prop where
  lock : ∀ p, s.lock = some p ↔ holding (s.calls p) = true
  calls : ∀ p op point, s.calls p = some (op, point) → CallOk s op point
  ring : Ring PIPESIZE s.data s.nread s.nwrite s.taken s.stored
  writes : ∀ n addr i places, (.write n addr i places, n) ∈ s.returns → Written s.stored addr n.toNat places

theorem Written.mono {stored stored' : List UInt8} {addr : ℕ → UInt8} {i : ℕ} {places : List ℕ}
    (h : Written stored addr i places) (hpre : stored <+: stored') : Written stored' addr i places := by
  refine ⟨h.1, ?_⟩
  rw [← h.2]
  refine List.map_congr_left fun k hk => ?_
  have hmem : stored[k]? ∈ places.map fun k => stored[k]? := List.mem_map_of_mem hk
  rw [h.2] at hmem
  obtain ⟨j, -, hj⟩ := List.mem_map.mp hmem
  obtain ⟨rest, rfl⟩ := hpre
  rw [List.getElem?_append_left (List.getElem?_eq_some_iff.mp hj.symm).1]

/-- What a process knows that does not hold the lock stays true. -/
theorem CallOk.frame (h : CallOk s op point) (hpoint : point.holds = false) (hpre : s.stored <+: s'.stored) :
    CallOk s' op point := by
  cases op with
  | write n addr i places => exact ⟨⟨h.1.1, h.1.2.mono hpre⟩, h.2⟩
  | read n addr => cases point <;> first | exact h | cases hpoint
  | close writable => trivial

/-- The points at which nothing is known but what the call has done. -/
def Point.plain : Point → Bool
  | .wait | .copy | .finish | .release _ => false
  | _ => true

/-- What a process knows as it goes from one such point to another. -/
theorem CallOk.plain (h : CallOk s op point) (hpoint : point.plain = true) (hpoint' : point'.plain = true)
    (hstored : s'.stored = s.stored) : CallOk s' op point' := by
  cases op with
  | write n addr i places =>
    refine ⟨?_, ?_⟩
    · rw [hstored]
      exact h.1
    · cases point' <;> trivial
  | read n addr =>
    have hnil : addr = [] := by cases point <;> first | exact h | cases hpoint
    cases point' <;> first | exact hnil | cases hpoint'
  | close writable => trivial

/-- What a process knows stays true when the pipe does not change. -/
theorem CallOk.congr (h : CallOk s op point) (hread : s'.nread = s.nread) (hwrite : s'.nwrite = s.nwrite)
    (hopen : s'.writeopen = s.writeopen) (hstored : s'.stored = s.stored) : CallOk s' op point := by
  have hempty : s'.empty ↔ s.empty := by rw [State.empty, hread, hwrite, State.empty]
  cases op with
  | write n addr i places =>
    unfold CallOk at h ⊢
    rw [hstored]
    exact h
  | read n addr => cases point <;> simp only [CallOk, hempty, hopen] at h ⊢ <;> exact h
  | close writable => trivial

section Advance

variable [DecidableEq P]

omit [DecidableEq P] in
/-- A process without the lock has no bytes in hand. -/
theorem inHand_eq_nil {c : Option (Op × Point)} (hholds : ¬holding c = true)
    (hok : ∀ op point, c = some (op, point) → CallOk s op point) : inHand c = [] := by
  cases c with
  | none => rfl
  | some call =>
    obtain ⟨op, point⟩ := call
    cases op with
    | read n addr =>
      have hread := hok _ _ rfl
      cases point <;> first | exact hread | exact absurd rfl hholds
    | write n addr i places => rfl
    | close writable => rfl

omit [DecidableEq P] in
theorem Inv.taken_eq (h : Inv s) (hlock : s.lock = none ∨ s.lock = some p) :
    s.taken = s.returned ++ inHand (s.calls p) := by
  rcases hlock with hlock | hlock
  · have hholds : ¬holding (s.calls p) = true := by
      rw [← h.lock p, hlock]
      simp
    rw [State.taken, hlock, inHand_eq_nil hholds (h.calls p)]
    rfl
  · rw [State.taken, hlock]
    rfl

/-- Process `p` comes to the point `c'`, with or without the lock. -/
structure Moves (s : State P) (p : P) (c' : Option (Op × Point)) (s' : State P) : Prop where
  calls : s'.calls = update s.calls p c'
  free : holding c' = true → s.lock = none ∨ s.lock = some p
  lock : s'.lock = handOver s.lock p (holding c')
  stored : s.stored <+: s'.stored
  /-- Only the process that holds the lock changes the pipe. -/
  pipe : s.lock ≠ some p →
    s'.nread = s.nread ∧ s'.nwrite = s.nwrite ∧ s'.writeopen = s.writeopen ∧ s'.stored = s.stored
  ok : ∀ op point, c' = some (op, point) → CallOk s' op point

variable {c' : Option (Op × Point)}

section

variable (hm : Moves s p c' s')

include hm

theorem Moves.lock_iff (h : Inv s) (q : P) : s'.lock = some q ↔ holding (s'.calls q) = true := by
  rw [hm.calls, hm.lock]
  exact handOver_iff h.lock hm.free q

theorem Moves.calls_ok (h : Inv s) (q : P) (op : Op) (point : Point) (hcall : s'.calls q = some (op, point)) :
    CallOk s' op point := by
  rw [hm.calls] at hcall
  by_cases hq : q = p
  · subst hq
    rw [update_self] at hcall
    exact hm.ok op point hcall
  rw [update_of_ne hq] at hcall
  have hok := h.calls q op point hcall
  by_cases hlock : s.lock = some p
  · have hholds : ¬holding (s.calls q) = true := fun hholds => by
      have hlock' := (h.lock q).mpr hholds
      rw [hlock] at hlock'
      exact hq (Option.some.inj hlock').symm
    rw [hcall] at hholds
    exact hok.frame (by simpa [holding] using hholds) hm.stored
  · obtain ⟨hread, hwrite, hopen, hstored⟩ := hm.pipe hlock
    exact hok.congr hread hwrite hopen hstored

theorem Moves.taken (h : Inv s) (hreturns : s'.returns = s.returns) (hhand : inHand c' = inHand (s.calls p)) :
    s'.taken = s.taken := by
  have hreturned : s'.returned = s.returned := by rw [State.returned, hreturns, State.returned]
  by_cases hc : holding c' = true
  · rw [h.taken_eq (hm.free hc), ← hhand, State.taken, hreturned, hm.lock, handOver, if_pos hc, hm.calls,
      Option.elim_some, update_self]
  have hlock' := hm.lock
  rw [handOver, if_neg hc] at hlock'
  by_cases hlock : s.lock = some p
  · rw [h.taken_eq (.inr hlock), ← hhand, inHand_eq_nil hc hm.ok, State.taken, hreturned, hlock', if_pos hlock]
    rfl
  rw [State.taken, hreturned, hlock', if_neg hlock, State.taken]
  cases hother : s.lock with
  | none => rfl
  | some q =>
    have hq : q ≠ p := by
      rintro rfl
      exact hlock hother
    rw [Option.elim_some, Option.elim_some, hm.calls, update_of_ne hq]

/-- A move that neither stores nor takes a byte, and does not return. -/
theorem Moves.quiet (h : Inv s) (hdata : s'.data = s.data) (hread : s'.nread = s.nread) (hwrite : s'.nwrite = s.nwrite)
    (hstored : s'.stored = s.stored) (hreturns : s'.returns = s.returns) (hhand : inHand c' = inHand (s.calls p)) :
    Inv s' := by
  have htaken := hm.taken h hreturns hhand
  refine { lock := hm.lock_iff h, calls := hm.calls_ok h, ring := ?_, writes := ?_ }
  · rw [hdata, hread, hwrite, htaken, hstored]
    exact h.ring
  · rw [hreturns, hstored]
    exact h.writes

end

/-- The process that holds the lock goes on with it. -/
theorem Moves.stay (hlock : s.lock = some p) (hcalls : s'.calls = update s.calls p (some (op', point')))
    (hlock' : s'.lock = s.lock) (hpoint : point'.holds = true) (hstored : s.stored <+: s'.stored)
    (hok : CallOk s' op' point') : Moves s p (some (op', point')) s' where
  calls := hcalls
  free _ := .inr hlock
  lock := by rw [hlock', hlock, holding, handOver, if_pos hpoint]
  stored := hstored
  pipe hne := absurd hlock hne
  ok op point heq := by
    cases heq
    exact hok

/-- The process that holds the lock goes on, and the pipe does not change. -/
theorem Inv.goto (h : Inv s) (hlock : s.lock = some p) (hpoint : point'.holds = true) (hok : CallOk s op' point')
    (hhand : inHand (some (op', point')) = inHand (s.calls p)) : Inv (s.goto p op' point') := by
  have hmoves : Moves s p (some (op', point')) (s.goto p op' point') :=
    .stay hlock rfl rfl hpoint List.prefix_rfl (hok.congr rfl rfl rfl rfl)
  exact hmoves.quiet h rfl rfl rfl rfl rfl hhand

omit [DecidableEq P] in
/-- The invariant does not depend on the process table and the reader's end. -/
theorem Inv.setProcs (h : Inv s) (procs : P → Entry Chan) (ptable : Option P) :
    Inv { s with procs := procs, ptable := ptable } where
  lock := h.lock
  calls q op point hcall := (h.calls q op point hcall).congr rfl rfl rfl rfl
  ring := h.ring
  writes := h.writes

omit [DecidableEq P] in
theorem Inv.lock_of_holds (h : Inv s) (hcall : s.calls p = some (op, point)) (hpoint : point.holds = true) :
    s.lock = some p := by
  rw [h.lock, hcall]
  exact hpoint

/-- A byte is stored for the call. -/
theorem Written.snoc {stored : List UInt8} {addr : ℕ → UInt8} {i : ℕ} {places : List ℕ}
    (h : Written stored addr i places) : Written (stored ++ [addr i]) addr (i + 1) (places ++ [stored.length]) := by
  have hbound : ∀ k ∈ places, k < stored.length := by
    intro k hk
    have hmem : stored[k]? ∈ places.map fun k => stored[k]? := List.mem_map_of_mem hk
    rw [h.2] at hmem
    obtain ⟨j, -, hj⟩ := List.mem_map.mp hmem
    exact (List.getElem?_eq_some_iff.mp hj.symm).1
  refine ⟨List.pairwise_append.mpr ⟨h.1, List.pairwise_singleton .., ?_⟩, ?_⟩
  · simpa using hbound
  · rw [List.map_append, (h.mono (List.prefix_append ..)).2, List.range_succ, List.map_append]
    simp

section Steps

variable {n : ℤ} {addr : ℕ → UInt8} {i : ℕ} {places : List ℕ} {got : List UInt8} {r : ℤ}

variable (h : Inv s)

include h

/-- A step of `pipewrite` at the head of its loop. -/
theorem Inv.testWrite (hcall : s.calls p = some (.write n addr i places, .test)) :
    Inv (s.test p (.write n addr i places)) := by
  have hlock := h.lock_of_holds hcall rfl
  obtain ⟨⟨hi, hwritten⟩, -⟩ := h.calls p _ _ hcall
  have hhand : inHand (s.calls p) = [] := by
    rw [hcall]
    rfl
  simp only [State.test]
  by_cases hlt : (i : ℤ) < n
  · rw [if_pos hlt]
    by_cases hfull : s.full
    · rw [if_pos hfull]
      exact h.goto hlock rfl ⟨⟨hi, hwritten⟩, hlt⟩ hhand.symm
    rw [if_neg hfull]
    have hmoves : Moves s p (some (.write n addr (i + 1) (places ++ [s.stored.length]), .test))
        ((s.put (addr i)).goto p (.write n addr (i + 1) (places ++ [s.stored.length])) .test) :=
      .stay hlock rfl rfl rfl (List.prefix_append ..) ⟨⟨by omega, hwritten.snoc⟩, trivial⟩
    refine { lock := hmoves.lock_iff h, calls := hmoves.calls_ok h, ring := ?_, writes := ?_ }
    · rw [hmoves.taken h rfl hhand.symm]
      exact h.ring.put hfull (addr i)
    · intro n' addr' i' places' hmem
      exact (h.writes n' addr' i' places' hmem).mono (List.prefix_append ..)
  · rw [if_neg hlt]
    exact h.goto hlock rfl ⟨⟨hi, hwritten⟩, not_lt.mp hlt⟩ hhand.symm

/-- A step of `piperead` at the head of its first loop. -/
theorem Inv.testRead (hcall : s.calls p = some (.read n got, .test)) : Inv (s.test p (.read n got)) := by
  have hlock := h.lock_of_holds hcall rfl
  have hnil : got = [] := h.calls p _ _ hcall
  have hhand : inHand (s.calls p) = got := by
    rw [hcall]
    rfl
  simp only [State.test]
  by_cases hwait : s.empty ∧ s.writeopen = true
  · rw [if_pos hwait]
    exact h.goto hlock rfl hnil hhand.symm
  · rw [if_neg hwait]
    exact h.goto hlock rfl (fun _ hempty => by simpa using fun hopen => hwait ⟨hempty, hopen⟩) hhand.symm

/-- `pipeclose` closes an end. -/
theorem Inv.testClose {writable : Bool} (hcall : s.calls p = some (.close writable, .test)) :
    Inv (s.test p (.close writable)) := by
  have hlock := h.lock_of_holds hcall rfl
  have hhand : inHand (s.calls p) = [] := by
    rw [hcall]
    rfl
  have hset : ∀ readopen writeopen, Inv ({ s with readopen := readopen, writeopen := writeopen }.goto p
      (.close writable) .finish) := by
    intro readopen writeopen
    have hmoves : Moves s p (some (.close writable, .finish))
        ({ s with readopen := readopen, writeopen := writeopen }.goto p (.close writable) .finish) :=
      .stay hlock rfl rfl rfl List.prefix_rfl trivial
    exact hmoves.quiet h rfl rfl rfl rfl rfl hhand.symm
  simp only [State.test]
  split
  · exact hset s.readopen false
  · exact hset false s.writeopen

/-- A call on a full or empty pipe gives up or goes on to sleep. -/
theorem Inv.wait (hcall : s.calls p = some (op, .wait)) : Inv (s.wait p op) := by
  have hlock := h.lock_of_holds hcall rfl
  have hok := h.calls p _ _ hcall
  have hhand : ∀ point', inHand (some (op, point')) = inHand (s.calls p) := by
    intro point'
    rw [hcall]
    cases op <;> rfl
  cases op with
  | write n addr i places =>
    obtain ⟨hwritten, hlt⟩ := hok
    simp only [State.wait]
    split
    · refine h.goto hlock rfl ⟨hwritten, fun heq => ?_⟩ (hhand _)
      omega
    · exact h.goto hlock rfl ⟨hwritten, trivial⟩ (hhand _)
  | read n got =>
    simp only [State.wait]
    split
    · exact h.goto hlock rfl ⟨fun hr => absurd hr (by decide), fun _ => hok, fun hr => absurd hr (by decide)⟩ (hhand _)
    · exact h.goto hlock rfl hok (hhand _)
  | close writable =>
    simp only [State.wait]
    split
    · exact h.goto hlock rfl trivial (hhand _)
    · exact h.goto hlock rfl trivial (hhand _)

/-- A round of the loop of `piperead` over the bytes. -/
theorem Inv.copy (hcall : s.calls p = some (op, .copy)) : Inv (s.copy p op) := by
  have hlock := h.lock_of_holds hcall rfl
  have hok := h.calls p _ _ hcall
  cases op with
  | write n addr i places => exact hok.2.elim
  | close writable => exact h.goto hlock rfl trivial (by rw [hcall]; rfl)
  | read n got =>
    have hhand : inHand (s.calls p) = got := by
      rw [hcall]
      rfl
    simp only [State.copy]
    by_cases hmore : (got.length : ℤ) < n ∧ ¬s.empty
    · rw [if_pos hmore]
      have hmoves : Moves s p (some (.read n (got ++ [s.next]), .copy))
          ({ s with nread := s.nread + 1 }.goto p (.read n (got ++ [s.next])) .copy) :=
        .stay hlock rfl rfl rfl List.prefix_rfl fun hnil => absurd hnil (by simp)
      refine { lock := hmoves.lock_iff h, calls := hmoves.calls_ok h, ring := ?_, writes := h.writes }
      have htaken : ({ s with nread := s.nread + 1 }.goto p (.read n (got ++ [s.next])) .copy).taken =
          s.taken ++ [s.next] := by
        rw [h.taken_eq (.inr hlock), hhand, List.append_assoc]
        simp [State.taken, State.goto, hlock, State.returned, inHand]
      rw [htaken]
      exact h.ring.take hmore.2
    · rw [if_neg hmore]
      refine h.goto hlock rfl (fun hnil hn => ?_) hhand.symm
      have hempty : s.empty := by
        by_contra hempty
        exact hmore ⟨by simpa [hnil] using hn, hempty⟩
      exact ⟨hempty, hok hnil hempty⟩

/-- A call wakes up the other side and is about to return. -/
theorem Inv.finish (hcall : s.calls p = some (op, .finish)) : Inv (s.goto p op (.release op.result)) := by
  have hlock := h.lock_of_holds hcall rfl
  have hok := h.calls p _ _ hcall
  have hhand : inHand (some (op, .release op.result)) = inHand (s.calls p) := by
    rw [hcall]
    cases op <;> rfl
  refine h.goto hlock rfl ?_ hhand
  cases op with
  | write n addr i places => exact ⟨hok.1, fun _ => hok.2⟩
  | read n got =>
    refine ⟨fun _ => rfl, fun hr => ?_, fun hr hn => hok ?_ hn⟩
    · simp only [Op.result] at hr
      omega
    · simpa [Op.result] using hr
  | close writable => trivial

/-- A call returns. -/
theorem Inv.release (hcall : s.calls p = some (op, .release r)) :
    Inv { s with lock := none, calls := update s.calls p none, returns := s.returns ++ [(op, r)] } := by
  have hlock := h.lock_of_holds hcall rfl
  have hok := h.calls p _ _ hcall
  have hmoves : Moves s p none
      { s with lock := none, calls := update s.calls p none, returns := s.returns ++ [(op, r)] } :=
    { calls := rfl
      free := fun hholds => by cases hholds
      lock := by rw [handOver, if_neg (by simp [holding]), if_pos hlock]
      stored := List.prefix_rfl
      pipe := fun hne => absurd hlock hne
      ok := fun _ _ heq => by cases heq }
  have hbytes : returnedBytes (op, r) = inHand (s.calls p) := by
    rw [hcall]
    cases op with
    | read n got =>
      simp only [returnedBytes, inHand]
      split
      · rfl
      · next hr => exact (hok.2.1 (not_le.mp hr)).symm
    | write n addr i places => rfl
    | close writable => rfl
  refine { lock := hmoves.lock_iff h, calls := hmoves.calls_ok h, ring := ?_, writes := ?_ }
  · have htaken : State.taken { s with
        lock := none, calls := update s.calls p none, returns := s.returns ++ [(op, r)] } = s.taken := by
      rw [h.taken_eq (.inr hlock), ← hbytes]
      simp [State.taken, State.returned]
    rw [htaken]
    exact h.ring
  intro n addr i places hmem
  rcases List.mem_append.mp hmem with hmem | hmem
  · exact h.writes n addr i places hmem
  obtain ⟨rfl, rfl⟩ := Prod.mk.inj (List.mem_singleton.mp hmem)
  obtain ⟨⟨hle, hwritten⟩, hge⟩ := hok
  have hi : n.toNat = i := by
    omega
  rw [hi]
  exact hwritten

end Steps

/-- From one point to another at which only what the call has done is known, with or without the lock. -/
theorem Inv.pass (h : Inv s) (hcall : s.calls p = some (op, point)) (hpoint : point.plain = true) (point' : Point)
    (hpoint' : point'.plain = true) (lock : Option P) (hlock : lock = handOver s.lock p point'.holds)
    (hfree : point'.holds = true → s.lock = none ∨ s.lock = some p) :
    Inv ({ s with lock := lock }.goto p op point') := by
  have hok : CallOk ({ s with lock := lock }.goto p op point') op point' :=
    (h.calls p _ _ hcall).plain hpoint hpoint' rfl
  have hmoves : Moves s p (some (op, point')) ({ s with lock := lock }.goto p op point') :=
    { calls := rfl
      free := hfree
      lock := hlock
      stored := List.prefix_rfl
      pipe := fun _ => ⟨rfl, rfl, rfl, rfl⟩
      ok := fun op₁ point₁ heq => by
        cases heq
        exact hok }
  refine hmoves.quiet h rfl rfl rfl rfl rfl ?_
  rw [hcall]
  cases op <;> rfl

/-- A process goes on with its call. -/
theorem Inv.run (h : Inv s) (hcall : s.calls p = some (op, point)) (hrun : s.run p op point = some s') : Inv s' := by
  have hholds : point.holds = true → s.lock = some p := h.lock_of_holds hcall
  have hfree : point.holds = false → s.lock ≠ some p := fun hpoint hlock => by
    have hholds' := (h.lock p).mp hlock
    rw [hcall] at hholds'
    exact absurd (hpoint.symm.trans hholds') (by decide)
  cases point with
  | acquire =>
    simp only [State.run, enabled_iff] at hrun
    obtain ⟨⟨hlock, -⟩, rfl⟩ := hrun
    exact h.pass hcall rfl .test rfl (some p) rfl fun _ => .inl hlock
  | test =>
    cases hrun
    cases op with
    | write n addr i places => exact h.testWrite hcall
    | read n got => exact h.testRead hcall
    | close writable => exact h.testClose hcall
  | wait =>
    cases hrun
    exact h.wait hcall
  | rouse =>
    simp only [State.run, enabled_iff] at hrun
    obtain ⟨-, rfl⟩ := hrun
    have hlock := hholds rfl
    exact (h.pass hcall rfl .sleep rfl s.lock (by simp [hlock]) fun _ => .inr hlock).setProcs _ _
  | sleep =>
    simp only [State.run, enabled_iff] at hrun
    obtain ⟨-, rfl⟩ := hrun
    have hlock := hholds rfl
    exact (h.pass hcall rfl .unlock rfl s.lock (by simp [hlock]) fun _ => .inr hlock).setProcs _ _
  | unlock =>
    cases hrun
    have hlock := hholds rfl
    exact h.pass hcall rfl .sched rfl none (by simp [hlock]) fun hpoint => by cases hpoint
  | sched =>
    cases hrun
    have hlock := hfree rfl
    exact (h.pass hcall rfl .asleep rfl s.lock (by simp [hlock])
      fun hpoint => by cases hpoint).setProcs _ _
  | asleep =>
    simp only [State.run, enabled_iff] at hrun
    obtain ⟨-, rfl⟩ := hrun
    have hlock := hfree rfl
    exact (h.pass hcall rfl .resume rfl s.lock (by simp [hlock])
      fun hpoint => by cases hpoint).setProcs _ _
  | resume =>
    cases hrun
    have hlock := hfree rfl
    exact (h.pass hcall rfl .acquire rfl s.lock (by simp [hlock])
      fun hpoint => by cases hpoint).setProcs _ _
  | copy =>
    cases hrun
    exact h.copy hcall
  | finish =>
    simp only [State.run, enabled_iff] at hrun
    obtain ⟨-, rfl⟩ := hrun
    exact (h.finish hcall).setProcs _ _
  | release r =>
    cases hrun
    exact h.release hcall

/-- A process makes a call. -/
theorem Inv.start (h : Inv s) (hstart : s.start p op = some s') (hok : CallOk s op .acquire)
    (hhand : inHand (some (op, .acquire)) = []) : Inv s' := by
  simp only [State.start, enabled_iff] at hstart
  obtain ⟨hcall, rfl⟩ := hstart
  have hlock : s.lock ≠ some p := fun hlock => by
    have hholds := (h.lock p).mp hlock
    rw [hcall] at hholds
    cases hholds
  have hmoves : Moves s p (some (op, .acquire)) (s.goto p op .acquire) :=
    { calls := rfl
      free := fun hpoint => by cases hpoint
      lock := by simp [holding, hlock, State.goto]
      stored := List.prefix_rfl
      pipe := fun _ => ⟨rfl, rfl, rfl, rfl⟩
      ok := fun op₁ point₁ heq => by
        cases heq
        exact hok.congr rfl rfl rfl rfl }
  refine hmoves.quiet h rfl rfl rfl rfl rfl ?_
  rw [hhand, hcall]
  rfl

theorem Inv.step {a : Action P} (h : Inv s) (hstep : step s a = some (.ok s')) : Inv s' := by
  cases a with
  | write p n addr =>
    obtain ⟨t, hstart, ht⟩ := Option.map_eq_some_iff.mp hstep
    cases ht
    exact h.start hstart ⟨⟨Nat.zero_le _, List.Pairwise.nil, rfl⟩, trivial⟩ rfl
  | read p n =>
    obtain ⟨t, hstart, ht⟩ := Option.map_eq_some_iff.mp hstep
    cases ht
    exact h.start hstart rfl rfl
  | close p writable =>
    obtain ⟨t, hstart, ht⟩ := Option.map_eq_some_iff.mp hstep
    cases ht
    exact h.start hstart trivial rfl
  | run p =>
    simp only [Pipe.step] at hstep
    cases hcall : s.calls p with
    | none => simp [hcall] at hstep
    | some call =>
      rw [hcall] at hstep
      obtain ⟨t, hrun, ht⟩ := Option.map_eq_some_iff.mp hstep
      cases ht
      exact h.run hcall hrun
  | kill p =>
    simp only [Pipe.step, enabled_iff] at hstep
    obtain ⟨-, hs⟩ := hstep
    cases hs
    exact h.setProcs _ _

end Advance

theorem Inv.pipealloc (procs : P → Entry Chan) (data : ℕ → UInt8) : Inv (State.pipealloc procs data) where
  lock p := by simp [State.pipealloc, holding]
  calls p op point hcall := by cases hcall
  ring := Ring.new (by decide) (by decide) data
  writes n addr i places hmem := by cases hmem

/-- A pipe is a lossless queue, whatever processes use it, in runs of any length. The counters never differ by more
than the size of the pipe. The bytes that reads have returned are the first bytes stored. A write that returns its
length has stored its bytes, in order. A read of a positive length that returns 0 found the write end closed, with
every byte returned that was stored. -/
theorem pipe_is_fifo [DecidableEq P] (procs : P → Entry Chan) (data : ℕ → UInt8) {trace : List (Action P)}
    (h : Run step (State.pipealloc procs data) trace s) :
    (s.nwrite - s.nread).toNat ≤ PIPESIZE.toNat ∧ s.returned <+: s.stored ∧
    (∀ n addr i places, (.write n addr i places, n) ∈ s.returns → Written s.stored addr n.toNat places) ∧
    ∀ p n addr, s.calls p = some (.read n addr, .release 0) → 0 < n → s.writeopen = false ∧ s.returned = s.stored := by
  have hinv : Inv s := Run.invariant (P := fun _ u => Inv u) (.pipealloc procs data)
    (fun _ _ _ _ _ hu hstep => hu.step hstep) h
  have hring := hinv.ring
  refine ⟨?_, (List.prefix_append ..).trans hring.pre, hinv.writes, fun p n addr hcall hn => ?_⟩
  · have hroom := hring.room
    rw [hring.count]
    omega
  have hlock := hinv.lock_of_holds hcall rfl
  obtain ⟨hlength, -, hend⟩ := hinv.calls p _ _ hcall
  obtain ⟨hempty, hopen⟩ := hend rfl hn
  have hnil : addr = [] := by simpa using (hlength le_rfl).symm
  have hreturned : s.taken = s.returned := by
    rw [hinv.taken_eq (.inr hlock), hcall, hnil]
    simp [inHand]
  have hlen := hring.empty_iff.mp hempty
  refine ⟨hopen, ?_⟩
  rw [← hreturned]
  exact hring.pre.eq_of_length hlen.symm

/-- Process 0 writes two bytes and closes its end; process 1 reads up to five bytes, twice. -/
def twoBytes : List (Action (Fin 2)) :=
  [Action.write 0 2 fun k => if k = 0 then 104 else 105] ++ List.replicate 6 (Action.run 0) ++
    [Action.close 0 true] ++ List.replicate 4 (Action.run 0) ++ [Action.read 1 5] ++ List.replicate 7 (Action.run 1) ++
    [Action.read 1 5] ++ List.replicate 4 (Action.run 1)

theorem pipe_is_fifo_two_bytes : ∃ s, Run step (.pipealloc (fun _ => ⟨.RUNNING, none, false⟩) fun _ => 0) twoBytes s ∧
    s.returned = [104, 105] ∧ s.returned <+: s.stored ∧ (s.nwrite - s.nread).toNat ≤ PIPESIZE.toNat := by
  obtain ⟨s, hrun, hcheck⟩ := run_of_check step (.pipealloc (fun _ => ⟨.RUNNING, none, false⟩) fun _ => 0) twoBytes
    (fun s => s.returned = [104, 105] ∧ s.lock = some 1) (by decide +kernel)
  obtain ⟨hsize, hpre, -, -⟩ := pipe_is_fifo _ _ hrun
  exact ⟨s, hrun, (of_decide_eq_true hcheck).1, hpre, hsize⟩

end Xv6.Pipe
