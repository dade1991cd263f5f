import Xv6.Tree.Boot
import Xv6.Tree.Discipline

/-!
# Balance of references, locks and transactions

Every call that completes has ended each transaction it began, has unlocked each inode it locked, and has
changed the reference count of each inode by the change in the number of open files and current directories
that refer to it.
-/

namespace Xv6.Tree

open Lib
open List (mem_cons_of_mem count_cons_of_ne count_cons_self)

attribute [local simp] Pi.single_apply

/-- The events of `n` transactions, one after the other. -/
def transactions (n : ℕ) : List OpEvent := (List.replicate n [.begin_op, .end_op]).flatten

theorem transactions_succ (n : ℕ) : transactions (n + 1) = transactions n ++ [.begin_op, .end_op] := by
  simp [transactions, List.replicate_succ']

/-- The state `c` in a call that started at `c₀` with the references `H₀` of open files and current
directories, and holds what `h` says. -/
structure Balanced (c₀ : Core) (H₀ : ℕ → ℕ) (h : Holding) (c : Core) : Prop where
  nodup : h.locks.Nodup
  held : ∀ i ∈ h.locks, i ∈ h.temps ∨ 0 < h.firm i
  counted : ∀ j, (H₀ j : ℤ) ≤ (c₀.cache j).ref
  ref : ∀ j, (c.cache j).ref + H₀ j = (c₀.cache j).ref + h.firm j + h.temps.count j
  locked : ∀ j ∈ h.locks, (c.cache j).busy = true
  unlocked : ∀ j, (c.cache j).busy = true → (c₀.cache j).busy = true ∨ j ∈ h.locks
  ops : ∃ n, c.ops = c₀.ops ++ transactions n ++ if h.op then [.begin_op] else []

namespace Balanced

variable {c₀ c c' : Core} {H₀ H : ℕ → ℕ} {h h' : Holding} {T T' L L' : List ℕ} {b : Bool} {i : ℕ}

/-- The call has one reference to each inode it has locked. -/
theorem ref_pos (hb : Balanced c₀ H₀ h c) (hheld : i ∈ h.temps ∨ 0 < h.firm i) : 0 < (c.cache i).ref := by
  have href := hb.ref i
  have hcounted := hb.counted i
  rcases hheld with hmem | hfirm
  · have hcount := List.count_pos_iff.mpr hmem
    omega
  · omega

section

variable (hb : Balanced c₀ H₀ ⟨T, L, b, H⟩ c)

include hb

/-- A change of one cache entry, and of what the call holds. -/
theorem setCached {e : Cached} (hnodup : L'.Nodup) (hheld : ∀ j ∈ L', j ∈ T' ∨ 0 < H j)
    (hcount : ∀ j ≠ i, T'.count j = T.count j) (href : e.ref + T.count i = (c.cache i).ref + T'.count i)
    (hlocks : ∀ j ≠ i, (j ∈ L' ↔ j ∈ L)) (hlocked : i ∈ L' → e.busy = true)
    (hunlocked : e.busy = true → (c₀.cache i).busy = true ∨ i ∈ L') :
    Balanced c₀ H₀ ⟨T', L', b, H⟩ (c.setCached i e) := by
  refine
    { nodup := hnodup, held := hheld, counted := hb.counted, ops := hb.ops
      ref := ?_, locked := ?_, unlocked := ?_ }
  · intro j
    have hj := hb.ref j
    by_cases hji : j = i
    · subst hji
      simp only [Core.setCached_cache, Function.update_self]
      dsimp only at hj
      omega
    · simp only [Core.setCached_cache, Function.update_of_ne hji, hcount j hji]
      exact hj
  · intro j hj
    by_cases hji : j = i
    · subst hji
      simpa using hlocked hj
    · simpa [Function.update_of_ne hji] using hb.locked j ((hlocks j hji).mp hj)
  · intro j hbusy
    by_cases hji : j = i
    · subst hji
      exact hunlocked (by simpa using hbusy)
    · rw [hlocks j hji]
      exact hb.unlocked j (by simpa [Function.update_of_ne hji] using hbusy)

omit hb in
/-- A change of the inodes, the free blocks and the history. -/
theorem congr (hb : Balanced c₀ H₀ h c) (hcache : c'.cache = c.cache) (hops : c'.ops = c.ops) :
    Balanced c₀ H₀ h c' := by
  obtain ⟨hnodup, hheld, hcounted, href, hlocked, hunlocked, hops'⟩ := hb
  rw [← hcache] at href hlocked hunlocked
  rw [← hops] at hops'
  exact ⟨hnodup, hheld, hcounted, href, hlocked, hunlocked, hops'⟩

theorem iget (i : ℕ) : Ensures (iget c i) (Balanced c₀ H₀ ⟨i :: T, L, b, H⟩) := by
  have hheld : ∀ j ∈ L, j ∈ i :: T ∨ 0 < H j := fun j hj => (hb.held j hj).imp_left (mem_cons_of_mem i)
  have hcount : ∀ j ≠ i, (i :: T).count j = T.count j := fun j hj => count_cons_of_ne hj.symm
  refine .ite (fun _ => .ok ?_) fun hpos => .ite (fun _ => .error _) fun _ => .ok ?_
  · refine hb.setCached hb.nodup hheld hcount ?_ (fun _ _ => .rfl) (hb.locked i) (hb.unlocked i)
    rw [count_cons_self]
    dsimp only
    omega
  have hzero : (c.cache i).ref = 0 := by
    have href := hb.ref i
    have hcounted := hb.counted i
    omega
  refine hb.setCached hb.nodup hheld hcount ?_ (fun _ _ => .rfl) (fun hmem => ?_) (fun hbusy => by cases hbusy)
  · rw [count_cons_self, hzero]
    dsimp only
    omega
  · exact absurd (hb.ref_pos (hb.held i hmem)) hpos

theorem idup (i : ℕ) : Balanced c₀ H₀ ⟨i :: T, L, b, H⟩ (idup c i) := by
  refine hb.setCached hb.nodup (fun j hj => (hb.held j hj).imp_left (mem_cons_of_mem i))
    (fun j hj => count_cons_of_ne hj.symm) ?_ (fun _ _ => .rfl) (hb.locked i) (hb.unlocked i)
  rw [count_cons_self]
  dsimp only
  omega

theorem ilock (hi : i ∈ T ∨ 0 < H i) : Ensures (ilock c i) (Balanced c₀ H₀ ⟨T, i :: L, b, H⟩) := by
  refine .ite (fun _ => .error _) fun _ => .ite (fun _ => .error _) fun hbusy => .ite (fun _ => .error _) fun _ =>
    .ok ?_
  have hnot : i ∉ L := fun hmem => hbusy (hb.locked i hmem)
  refine hb.setCached (List.nodup_cons.mpr ⟨hnot, hb.nodup⟩) ?_ (fun _ _ => rfl) rfl (fun j hj => ?_) (fun _ => rfl)
    fun _ => .inr List.mem_cons_self
  · intro j hj
    rcases List.mem_cons.mp hj with rfl | hj
    · exact hi
    · exact hb.held j hj
  · simp [hj]

end

theorem iunlock (hb : Balanced c₀ H₀ ⟨T, i :: L, b, H⟩ c) : Ensures (iunlock c i) (Balanced c₀ H₀ ⟨T, L, b, H⟩) := by
  obtain ⟨hnot, hnodup⟩ := List.nodup_cons.mp hb.nodup
  refine .ite (fun _ => .error _) fun _ => .ok ?_
  refine hb.setCached hnodup (fun j hj => hb.held j (mem_cons_of_mem i hj)) (fun _ _ => rfl) rfl (fun j hj => ?_)
    (fun hmem => absurd hmem hnot) fun hbusy => by cases hbusy
  simp [hj]

theorem iput (hb : Balanced c₀ H₀ ⟨i :: T, L, b, H⟩ c) (hi : i ∈ L → i ∈ T ∨ 0 < H i) :
    Ensures (iput c i) (Balanced c₀ H₀ ⟨T, L, b, H⟩) := by
  intro c' hok
  have href := hb.ref i
  have hcounted := hb.counted i
  simp only [count_cons_self] at href
  have hheld : ∀ j ∈ L, j ∈ T ∨ 0 < H j := by
    intro j hj
    by_cases hji : j = i
    · subst hji
      exact hi hj
    · rcases hb.held j hj with hmem | hfirm
      · exact .inl (List.mem_of_ne_of_mem hji hmem)
      · exact .inr hfirm
  have hcount : ∀ j ≠ i, T.count j = (i :: T).count j := fun j hj => (count_cons_of_ne hj.symm).symm
  obtain ⟨hone, -, -, rfl⟩ | ⟨-, rfl⟩ := iput_cases hok
  · -- the last reference: the inode is not locked
    have hnot : i ∉ L := by
      intro hmem
      rcases hi hmem with hmem | hfirm
      · have hcount := List.count_pos_iff.mpr hmem
        omega
      · omega
    have hset : Balanced c₀ H₀ ⟨T, L, b, H⟩ (c.setCached i ⟨0, false, false⟩) := by
      refine hb.setCached hb.nodup hheld hcount ?_ (fun _ _ => .rfl) (fun hmem => absurd hmem hnot)
        fun hbusy => by cases hbusy
      rw [count_cons_self, hone]
      dsimp only
      omega
    exact hset.congr rfl rfl
  · have hset : Balanced c₀ H₀ ⟨T, L, b, H⟩ (c.setCached i { c.cache i with ref := (c.cache i).ref - 1 }) := by
      refine hb.setCached hb.nodup hheld hcount ?_ (fun _ _ => .rfl) (hb.locked i) (hb.unlocked i)
      rw [count_cons_self]
      dsimp only
      omega
    exact hset.congr rfl rfl

theorem beginOp (hb : Balanced c₀ H₀ ⟨T, L, false, H⟩ c) : Balanced c₀ H₀ ⟨T, L, true, H⟩ (beginOp c) := by
  obtain ⟨n, hops⟩ := hb.ops
  refine { hb with ops := ⟨n, ?_⟩ }
  change c.ops ++ [.begin_op] = _
  simp [hops]

theorem endOp (hb : Balanced c₀ H₀ ⟨T, L, true, H⟩ c) : Balanced c₀ H₀ ⟨T, L, false, H⟩ (endOp c) := by
  obtain ⟨n, hops⟩ := hb.ops
  refine { hb with ops := ⟨n + 1, ?_⟩ }
  change c.ops ++ [.end_op] = _
  simp [hops, transactions_succ]

/-- A reference of the call becomes one of an open file or a current directory. -/
theorem keep (hb : Balanced c₀ H₀ ⟨i :: T, L, b, H⟩ c) : Balanced c₀ H₀ ⟨T, L, b, H + Pi.single i 1⟩ c := by
  refine { hb with held := ?_, ref := ?_ }
  · intro j hj
    by_cases hji : j = i
    · exact .inr (by simp [hji])
    · rcases hb.held j hj with hmem | hfirm
      · exact .inl (List.mem_of_ne_of_mem hji hmem)
      · exact .inr (by simpa [hji] using hfirm)
  intro j
  have href := hb.ref j
  by_cases hji : j = i
  · subst hji
    simp only [count_cons_self] at href
    simp only [Pi.add_apply, Pi.single_eq_same]
    omega
  · simpa [hji, count_cons_of_ne (Ne.symm hji)] using href

/-- A reference of an open file or a current directory is left to the call. -/
theorem drop (hb : Balanced c₀ H₀ ⟨T, L, b, H + Pi.single i 1⟩ c) : Balanced c₀ H₀ ⟨i :: T, L, b, H⟩ c := by
  refine { hb with held := ?_, ref := ?_ }
  · intro j hj
    by_cases hji : j = i
    · exact .inl (by simp [hji])
    · rcases hb.held j hj with hmem | hfirm
      · exact .inl (mem_cons_of_mem i hmem)
      · exact .inr (by simpa [hji] using hfirm)
  intro j
  have href := hb.ref j
  by_cases hji : j = i
  · subst hji
    simp only [Pi.add_apply, Pi.single_eq_same] at href
    simp only [count_cons_self]
    omega
  · simpa [hji, count_cons_of_ne (Ne.symm hji)] using href

/-- A call has nothing when it starts. -/
theorem start (h : ∀ j, (H j : ℤ) ≤ (c.cache j).ref) : Balanced c H ⟨[], [], false, H⟩ c where
  nodup := List.nodup_nil
  held := by simp
  counted := h
  ref j := by simp
  locked := by simp
  unlocked j hbusy := .inl hbusy
  ops := ⟨0, by simp [transactions]⟩

/-- The balance is an assertion that every call maintains. -/
theorem discipline (c₀ : Core) (H₀ : ℕ → ℕ) : Discipline H₀ (fun _ => True) (fun _ => True) (Balanced c₀ H₀) where
  types _ := trivial
  nodup hb := hb.nodup
  held hb := hb.held
  permTemps hperm hb :=
    { hb with
      held := fun i hi => (hb.held i hi).imp_left fun hmem => hperm.mem_iff.mp hmem
      ref := fun j => by
        have href := hb.ref j
        dsimp only at href ⊢
        rw [← hperm.count_eq j]
        exact href }
  permLocks hperm hb :=
    { hb with
      nodup := hperm.nodup_iff.mp hb.nodup
      held := fun i hi => hb.held i (hperm.mem_iff.mpr hi)
      locked := fun j hj => hb.locked j (hperm.mem_iff.mpr hj)
      unlocked := fun j hbusy => (hb.unlocked j hbusy).imp_right fun hmem => hperm.mem_iff.mp hmem }
  beginOp := Balanced.beginOp
  endOp := Balanced.endOp
  iget i hb := hb.iget i
  idup _ hb := hb.idup _
  ilock hi hb := hb.ilock hi
  iunlock := Balanced.iunlock
  iput hi hb := hb.iput hi
  ialloc _ hb := by
    rintro ⟨i, c'⟩ hok
    obtain ⟨-, -, hget⟩ := ialloc_ok hok
    refine Balanced.ilock ?_ (.inl List.mem_cons_self)
    refine Balanced.iget ?_ i c' hget
    exact hb.congr rfl rfl
  update _ _ _ _ hb := hb.congr rfl rfl
  writeEntry k e _ _ hb := by
    exact .ite (fun _ => .ok hb) fun _ => .ite (fun _ => .error _) fun _ => .ok (hb.congr rfl rfl)
  store off bytes _ _ hb := by
    exact .ite (fun _ => .error _) fun _ => .ok (hb.congr rfl rfl)
  keep _ := Balanced.keep
  drop := Balanced.drop

end Balanced

/-- A call leads from `c` to `c'` in balance: it has ended its transactions, one after the other; the inodes that
it locked and has not unlocked are `locks`; references have changed with the references `H` of open files and
current directories, and the call has left `temps` to its caller. -/
structure InBalance (H : ℕ → ℕ) (c : Core) (temps locks : List ℕ) (H' : ℕ → ℕ) (c' : Core) : Prop where
  ops : ∃ n, c'.ops = c.ops ++ transactions n
  unlocked : ∀ i, (c'.cache i).busy = true → (c.cache i).busy = true ∨ i ∈ locks
  ref : ∀ i, (c'.cache i).ref - (c.cache i).ref = (H' i - H i : ℤ) + temps.count i

/-- The balance of a system call, which leaves nothing to a caller. -/
def State.InBalance (s s' : State) : Prop := Tree.InBalance s.holders s.core [] [] s'.holders s'.core

/-- The references of open files and current directories are counted. -/
def Counted (s : State) : Prop := ∀ i, (s.holders i : ℤ) ≤ (s.core.cache i).ref

section

variable {s s' : State} {c c' : Core} {H H' : ℕ → ℕ} {T L : List ℕ}

/-- The caller has locked `dp`, with a reference of its own to it or that of an open file. -/
theorem Counted.balanced_locked (hs : Counted s) {dp : ℕ} (hbusy : (s.core.cache dp).busy = true)
    (href : 0 < (s.core.cache dp).ref) :
    ∃ K, Balanced s.core (s.holders + K) ⟨[], [dp], false, s.holders + K⟩ s.core := by
  have hlocked : ∀ K : ℕ → ℕ, 0 < s.holders dp + K dp → (∀ j, ((s.holders j + K j : ℕ) : ℤ) ≤ (s.core.cache j).ref) →
      Balanced s.core (s.holders + K) ⟨[], [dp], false, s.holders + K⟩ s.core := fun K hpos hcounted =>
    { nodup := List.nodup_singleton dp
      held := by simpa using hpos
      counted := hcounted
      ref := fun j => by simp
      locked := by simpa using hbusy
      unlocked := fun j hbusy => .inl hbusy
      ops := ⟨0, by simp [transactions]⟩ }
  by_cases hheld : 0 < s.holders dp
  · exact ⟨0, hlocked 0 (by simpa using hheld) fun j => by simpa using hs j⟩
  refine ⟨Pi.single dp 1, hlocked _ (by simp) fun j => ?_⟩
  by_cases hj : j = dp
  · subst hj
    simp only [Pi.single_eq_same]
    omega
  · simpa [hj] using hs j

theorem Balanced.inBalance (hb : Balanced c H ⟨T, L, false, H'⟩ c') : InBalance H c T L H' c' where
  ops := by simpa using hb.ops
  unlocked i hbusy := hb.unlocked i hbusy
  ref i := by
    have href := hb.ref i
    dsimp only at href
    omega

/-- References that the caller keeps do not matter. -/
theorem InBalance.frame {K : ℕ → ℕ} (hb : InBalance (H + K) c T L (H' + K) c') : InBalance H c T L H' c' where
  ops := hb.ops
  unlocked := hb.unlocked
  ref i := by
    have href := hb.ref i
    simp only [Pi.add_apply] at href
    omega

/-- A lock that the caller holds is not one of the call. -/
theorem InBalance.callerLocks (hb : InBalance H c T L H' c') (hlocks : ∀ i ∈ L, (c.cache i).busy = true) :
    InBalance H c T [] H' c' where
  ops := hb.ops
  unlocked i hbusy := .inl ((hb.unlocked i hbusy).elim id (hlocks i))
  ref := hb.ref

/-- A step of a process is in balance. -/
theorem Counted.act (hs : Counted s) {a : Fin NPROC × Action} (hact : act s a = some (.ok s')) : s.InBalance s' := by
  obtain ⟨proc, hproc, hslot, hrun⟩ := act_eq_ok hact
  have D := Balanced.discipline s.core s.holders
  exact (D.action a.2 hproc rfl hslot (fun _ _ => trivial) (.start hs) s' hrun).inBalance

/-- After any calls, the references to an inode are those of open files and current directories. -/
theorem refs_eq_holders (src : Source) (alive : Fin NPROC → Bool) {trace : List (Fin NPROC × Action)}
    (h : Run Tree.act (src.boot alive) trace s) : ∀ i, (s.core.cache i).ref = s.holders i := by
  refine Run.invariant (P := fun _ u => ∀ i, (u.core.cache i).ref = u.holders i) ?_ ?_ h
  · exact (src.consistent_boot alive True).refs
  intro trace a t u _ hrefs hact i
  have hcounted : Counted t := fun j => (hrefs j).ge
  have hchange := (hcounted.act hact).ref i
  have hbefore := hrefs i
  simp only [List.count_nil] at hchange
  omega

theorem refs_eq_holders_mkdir : ∃ s, Run act (emptySource.boot firstProcess) [(0, .call (.mkdir (some [100])))] s ∧
    (s.core.cache ROOTINO).ref = 1 ∧ ∀ i, (s.core.cache i).ref = s.holders i :=
  exists_run_and (fun _ h => refs_eq_holders _ _ h) (by decide +kernel)

end

/-- Every file system call that completes is in balance, from every state in which the references of open files
and current directories are counted. Under the calls, a lookup and `create` leave the inode that they return to
their caller, `create` with its lock; `dirlink` works on a directory that its caller has locked. -/
theorem calls_in_balance (s : State) (hs : Counted s) (pid : Fin NPROC) (proc : Proc)
    (hproc : s.procs pid = some proc) :
    (∀ a : Action, (∀ slot ∈ a.slot, s.procs slot = none) → Ensures (a.run s pid proc) s.InBalance) ∧
    (∀ f, Ensures (fileclose s f) s.InBalance) ∧
    (∀ f n io, Ensures (fileread s f n io) fun out => s.InBalance out.2) ∧
    (∀ f bytes n io, Ensures (filewrite s f bytes n io) fun out => s.InBalance out.2) ∧
    (∀ f, Ensures (filestat s f) fun out => s.InBalance out.2) ∧
    (∀ path parent, Ensures (namex s.core proc.cwd path parent) fun out =>
      InBalance s.holders s.core (out.1.map Prod.fst).toList [] s.holders out.2) ∧
    (∀ path type major minor, Ensures (create s.core proc.cwd path type major minor) fun out =>
      InBalance s.holders s.core out.1.toList out.1.toList s.holders out.2) ∧
    ∀ dp name inum, (s.core.cache dp).busy = true → 0 < (s.core.cache dp).ref →
      Ensures (dirlink s.core dp name inum) fun out => InBalance s.holders s.core [] [] s.holders out.2 := by
  have D := Balanced.discipline s.core s.holders
  have hb := Balanced.start hs
  have hcwd : 0 < s.holders proc.cwd := le_holders_of_proc hproc
  refine ⟨fun a hslot => ?_, fun f => ?_, fun f n io => ?_, fun f bytes n io => ?_, fun f => ?_, fun path parent => ?_,
    fun path type major minor => ?_, fun dp name inum hbusy href => ?_⟩
  · exact (D.action a hproc rfl hslot (fun _ _ => trivial) hb).imp fun _ h => h.inBalance
  · exact (D.fileclose hb).imp fun _ h => h.2.inBalance
  · exact (D.fileread hb).imp fun _ h => h.inBalance
  · exact (D.filewrite hb fun _ _ => trivial).imp fun _ h => h.inBalance
  · exact (D.filestat hb).imp fun _ h => h.inBalance
  · refine (D.namex path parent hcwd hb).imp ?_
    rintro ⟨found, c'⟩ hfound
    cases found with
    | none => exact hfound.inBalance
    | some entry => exact hfound.inBalance
  · refine (D.create path trivial hcwd hb).imp ?_
    rintro ⟨made, c'⟩ hmade
    cases made with
    | none => exact hmade.inBalance
    | some ip => exact hmade.inBalance
  · obtain ⟨K, hlocked⟩ := hs.balanced_locked hbusy href
    have D' := Balanced.discipline s.core (s.holders + K)
    refine (D'.dirlink inum (List.mem_singleton_self dp) hlocked).imp fun _ h => h.inBalance.frame.callerLocks ?_
    simpa using hbusy

/-- The calls mkdir("d"), which succeeds, unlink("."), which fails, and chdir with an argument that is refused. -/
theorem calls_in_balance_boot :
    (∃ s, (Action.call (.mkdir (some [100]))).run (emptySource.boot firstProcess) 0 ⟨ROOTINO, fun _ => none⟩ = .ok s ∧
      (emptySource.boot firstProcess).InBalance s) ∧
    (∃ s, (Action.call (.unlink [46])).run (emptySource.boot firstProcess) 0 ⟨ROOTINO, fun _ => none⟩ = .ok s ∧
      (emptySource.boot firstProcess).InBalance s) ∧
    ∃ s, (Action.call (.chdir none)).run (emptySource.boot firstProcess) 0 ⟨ROOTINO, fun _ => none⟩ = .ok s ∧
      (emptySource.boot firstProcess).InBalance s := by
  have hs : Counted (emptySource.boot firstProcess) := fun i =>
    ((emptySource.consistent_boot firstProcess True).refs i).ge
  have hbalance := (calls_in_balance _ hs 0 ⟨ROOTINO, fun _ => none⟩ rfl).1
  have hcall : ∀ call, ((Action.call call).run (emptySource.boot firstProcess) 0 ⟨ROOTINO, fun _ => none⟩).isOk = true →
      ∃ s, (Action.call call).run (emptySource.boot firstProcess) 0 ⟨ROOTINO, fun _ => none⟩ = .ok s ∧
        (emptySource.boot firstProcess).InBalance s := by
    intro call hok
    obtain ⟨s, hrun⟩ := exists_ok hok
    exact ⟨s, hrun, hbalance _ (by simp [Action.slot]) s hrun⟩
  exact ⟨hcall _ (by decide +kernel), hcall _ (by decide +kernel), hcall _ (by decide +kernel)⟩

end Xv6.Tree
