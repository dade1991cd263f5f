import Mathlib

/-!
# The processors of the machine

`mpinit` goes through the MP configuration table, which the firmware supplies. An entry of a type it does not know makes
it give up the multiprocessor, but it does not go on to the next entry, and it counts processors without a bound.
-/

namespace Xv6.Mp

/-- Processors that there is room for. -/
abbrev NCPU : ℕ := 8

abbrev MPPROC : UInt8 := 0
abbrev MPBUS : UInt8 := 1
abbrev MPIOAPIC : UInt8 := 2
abbrev MPIOINTR : UInt8 := 3
abbrev MPLINTR : UInt8 := 4

/-- The flag of the bootstrap processor. -/
abbrev MPBOOT : UInt8 := 2

section Model

/-- The field `length` of the table at the address from which `conf` has the bytes. -/
def length (conf : ℕ → UInt8) : ℕ := (conf 4).toNat + 256 * (conf 5).toNat

/-- The sum of bytes. -/
def sum (addr : ℕ → UInt8) (len : ℕ) : UInt8 := (List.range len).foldl (fun sum i => sum + addr i) 0

/-- The tests of `mpconfig`: the signature "PCMP", the version and the checksum. -/
def mpconfig (conf : ℕ → UInt8) : Prop :=
  (List.range 4).map conf = [80, 67, 77, 80] ∧ (conf 6 = 1 ∨ conf 6 = 4) ∧ sum conf (length conf) = 0

instance (conf : ℕ → UInt8) : Decidable (mpconfig conf) := inferInstanceAs (Decidable (_ ∧ _))

/-- What `mpinit` finds. -/
structure Machine where
  ncpu : ℕ
  ismp : Bool
  /-- The place of the bootstrap processor in `cpus`. -/
  bcpu : ℕ
  ioapicid : UInt8
  /-- The places of `cpus` whose `id` was set. -/
  stores : List ℕ
  deriving DecidableEq, Repr

/-- One turn of the loop of `mpinit`, at byte `p` of the table. -/
def turn (conf : ℕ → UInt8) (p : ℕ) (s : Machine) : ℕ × Machine :=
  if conf p = MPPROC then
    (p + 20, { s with
      ncpu := s.ncpu + 1
      ismp := s.ismp && s.ncpu == (conf (p + 1)).toNat
      bcpu := if conf (p + 3) &&& MPBOOT != 0 then s.ncpu else s.bcpu
      stores := s.stores ++ [s.ncpu] })
  else if conf p = MPIOAPIC then (p + 8, { s with ioapicid := conf (p + 1) })
  else if conf p = MPBUS ∨ conf p = MPIOINTR ∨ conf p = MPLINTR then (p + 8, s)
  else (p, { s with ismp := false })

/-- The loop of `mpinit` up to byte `e`, for a number of turns. -/
def scan (conf : ℕ → UInt8) (e : ℕ) : ℕ → ℕ → Machine → Option Machine
  | 0, _, _ => none
  | fuel + 1, p, s => if p < e then scan conf e fuel (turn conf p s).1 (turn conf p s).2 else some s

/-- The end of `mpinit`: if it did not like what it found, it falls back to no MP. -/
def fallBack (s : Machine) : Machine := if s.ismp then s else { s with ncpu := 1, ioapicid := 0 }

/-- `mpinit` with a table that `mpconfig` accepts. The first entry is behind the 44 bytes of the header. -/
def mpinit (conf : ℕ → UInt8) (fuel : ℕ) : Option Machine :=
  (scan conf (length conf) fuel 44 ⟨0, true, 0, 0, []⟩).map fallBack

end Model

/-- The processors from byte `p` of a table on, if every entry is of a type that is known. -/
def processors (conf : ℕ → UInt8) (e p : ℕ) : Option ℕ :=
  if p < e then
    if conf p = MPPROC then (processors conf e (p + 20)).map (· + 1)
    else if conf p ∈ [MPIOAPIC, MPBUS, MPIOINTR, MPLINTR] then processors conf e (p + 8)
    else none
  else some 0
termination_by e - p

variable {conf : ℕ → UInt8} {e p n : ℕ} {s : Machine}

theorem turn_proc (h : conf p = MPPROC) :
    ∃ s', turn conf p s = (p + 20, s') ∧ s'.ncpu = s.ncpu + 1 ∧ s'.stores = s.stores ++ [s.ncpu] :=
  ⟨_, if_pos h, rfl, rfl⟩

theorem turn_other (hproc : conf p ≠ MPPROC) (h : conf p ∈ [MPIOAPIC, MPBUS, MPIOINTR, MPLINTR]) :
    ∃ id, turn conf p s = (p + 8, { s with ioapicid := id }) := by
  rw [turn, if_neg hproc]
  split_ifs with hioapic hother
  · exact ⟨_, rfl⟩
  · exact ⟨_, rfl⟩
  · simp [hioapic, hother] at h

theorem turn_unknown (hproc : conf p ≠ MPPROC) (h : conf p ∉ [MPIOAPIC, MPBUS, MPIOINTR, MPLINTR]) :
    (turn conf p s).1 = p := by
  rw [turn, if_neg hproc]
  split_ifs with hioapic hother
  · simp [hioapic] at h
  · simp [hother] at h
  · rfl

/-- With entries of known types only, the loop ends, and it makes one store for each processor. -/
theorem scan_of_processors (h : processors conf e p = some n) (s : Machine) :
    ∃ s', s'.ncpu = s.ncpu + n ∧ s'.stores = s.stores ++ List.range' s.ncpu n ∧
      ∃ turns, ∀ fuel, scan conf e fuel p s = if turns < fuel then some s' else none := by
  fun_induction processors generalizing n s with
  | case1 p hp hproc ih =>
    obtain ⟨m, hm, rfl⟩ := Option.map_eq_some_iff.mp h
    obtain ⟨s₁, hturn, hncpu₁, hstores₁⟩ := turn_proc (s := s) hproc
    obtain ⟨s', hncpu, hstores, turns, hscan⟩ := ih hm s₁
    refine ⟨s', by omega, ?_, turns + 1, fun fuel => ?_⟩
    · rw [hstores, hstores₁, hncpu₁, List.append_assoc, List.range'_succ, List.singleton_append]
    · cases fuel with
      | zero => rfl
      | succ fuel => simp [scan, hp, hturn, hscan]
  | case2 p hp hproc hother ih =>
    obtain ⟨id, hturn⟩ := turn_other (s := s) hproc hother
    obtain ⟨s', hncpu, hstores, turns, hscan⟩ := ih h { s with ioapicid := id }
    refine ⟨s', hncpu, hstores, turns + 1, fun fuel => ?_⟩
    cases fuel with
    | zero => rfl
    | succ fuel => simp [scan, hp, hturn, hscan]
  | case3 => cases h
  | case4 p hp =>
    cases h
    refine ⟨s, rfl, (List.append_nil _).symm, 0, fun fuel => ?_⟩
    cases fuel with
    | zero => rfl
    | succ fuel => simp [scan, hp]

/-- At an entry of another type the loop stays. -/
theorem scan_of_unknown (h : processors conf e p = none) (fuel : ℕ) (s : Machine) : scan conf e fuel p s = none := by
  induction fuel generalizing p s with
  | zero => rfl
  | succ fuel ih =>
    rw [processors] at h
    split_ifs at h with hp hproc hother
    · obtain ⟨s₁, hturn, -⟩ := turn_proc (s := s) hproc
      rw [scan, if_pos hp, hturn]
      exact ih (Option.map_eq_none_iff.mp h) _
    · obtain ⟨id, hturn⟩ := turn_other (s := s) hproc hother
      rw [scan, if_pos hp, hturn]
      exact ih h _
    · rw [scan, if_pos hp, turn_unknown hproc hother]
      exact ih (by rw [processors, if_pos hp, if_neg hproc, if_neg hother]) _

/-- `mpinit` ends within `cpus`, with a number of processors that fits. -/
def Copes (conf : ℕ → UInt8) : Prop :=
  ∃ fuel s, mpinit conf fuel = some s ∧ (∀ i ∈ s.stores, i < NCPU) ∧
    (s.ismp = true → s.stores ≠ [] → 1 ≤ s.ncpu ∧ s.ncpu ≤ NCPU) ∧
    (processors conf (length conf) 44 = none → s.ncpu = 1 ∧ s.ismp = false)

/-- A table with the entries given, with its checksum. -/
def table (entries : List UInt8) : ℕ → UInt8 := fun i =>
  let len := 44 + entries.length
  let header : List UInt8 := [80, 67, 77, 80, UInt8.ofNat len, UInt8.ofNat (len / 256), 1]
  if i = 7 then -(header.sum + entries.sum) else if i < 44 then header.getD i 0 else entries.getD (i - 44) 0

/-- `mpinit` copes with exactly the tables that have entries of known types only and processors for which there is
room. -/
theorem mpinit_copes_iff (conf : ℕ → UInt8) (_ : mpconfig conf) :
    Copes conf ↔ ∃ n ≤ NCPU, processors conf (length conf) 44 = some n := by
  unfold Copes
  cases hcount : processors conf (length conf) 44 with
  | none =>
    refine iff_of_false ?_ (by simp)
    rintro ⟨fuel, s, hinit, -⟩
    rw [mpinit, scan_of_unknown hcount] at hinit
    cases hinit
  | some n =>
    obtain ⟨s, hncpu, hstores, turns, hscan⟩ := scan_of_processors hcount ⟨0, true, 0, 0, []⟩
    have hinit (fuel : ℕ) : mpinit conf fuel = if turns < fuel then some (fallBack s) else none := by
      rw [mpinit, hscan]
      split <;> rfl
    have hstored : (fallBack s).stores = List.range n := by
      rw [List.range_eq_range', ← List.nil_append (List.range' 0 n), ← hstores]
      unfold fallBack
      split <;> rfl
    have hin : (∀ i ∈ (fallBack s).stores, i < NCPU) ↔ n ≤ NCPU := by
      rw [hstored]
      refine ⟨fun h => ?_, fun hn i hi => (List.mem_range.mp hi).trans_le hn⟩
      by_contra hlt
      exact absurd (h NCPU (List.mem_range.mpr (not_le.mp hlt))) (lt_irrefl _)
    constructor
    · rintro ⟨fuel, s', hs', hall, -⟩
      rw [hinit, Option.ite_none_right_eq_some] at hs'
      cases hs'.2
      exact ⟨n, hin.mp hall, rfl⟩
    · rintro ⟨_, hn, ⟨⟩⟩
      refine ⟨turns + 1, _, (hinit _).trans (if_pos (Nat.lt_succ_self _)), hin.mpr hn, fun hmp hne => ?_, nofun⟩
      rw [hstored, ne_eq, List.range_eq_nil] at hne
      unfold fallBack at hmp ⊢
      split_ifs at hmp ⊢ with hismp
      · simp only at hncpu
        omega
      · exact absurd hmp hismp

/-- One processor. -/
theorem mpinit_copes_one : Copes (table (List.replicate 20 0)) :=
  (mpinit_copes_iff _ (by decide +kernel)).mpr ⟨1, by decide, by simp [processors, table, length]⟩

/-- A table with an entry of type 5 is never left, and one with nine processors makes `mpinit` store behind `cpus`. -/
theorem mpinit_fails : (mpconfig (table [5]) ∧ ∀ fuel, mpinit (table [5]) fuel = none) ∧
    mpconfig (table (List.replicate 180 0)) ∧
      (mpinit (table (List.replicate 180 0)) 10).map Machine.stores = some (List.range 9) := by
  refine ⟨⟨by decide, fun fuel => ?_⟩, by decide +kernel, by decide +kernel⟩
  rw [mpinit, scan_of_unknown (by simp [processors, table, length]; decide)]
  rfl

end Xv6.Mp
