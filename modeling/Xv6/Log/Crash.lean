import Xv6.Log.Commit

/-!
# Crash atomicity of the redo log

Every disk that a stopped commit or a stopped recovery can leave behind is in one of two
phases. It is idle when its header lists nothing, and pending when its header lists a
transaction whose log copies are complete. Recovery keeps an idle disk's home blocks, and
takes a pending disk to an idle one that holds the whole transaction; stopping recovery
early leaves a disk in one of the same two phases. The header write of `commit` is the only
step from idle to pending.
-/

namespace Xv6

open Lib
open Function (update update_of_ne)

namespace Machine

/-- Issue a sequence of writes. -/
def issue (m : Machine) (writes : List (ℕ × Block)) : Machine :=
  ⟨applyWrites m.buf writes, applyWrites m.disk writes, m.issued ++ writes⟩

theorem issue_nil (m : Machine) : m.issue [] = m := by
  simp [issue]

theorem issue_issue (m : Machine) (first second : List (ℕ × Block)) :
    (m.issue first).issue second = m.issue (first ++ second) := by
  simp [issue, applyWrites_append]

theorem bwrite_eq_issue (m : Machine) (b : ℕ) (data : Block) : m.bwrite b data = m.issue [(b, data)] := rfl

end Machine

namespace Log

/-- The writes that copy the listed blocks into the log, starting at data block `tail`. -/
def logCopies (log : Log) (buf : ℕ → Block) (tail : ℕ) : List ℕ → List (ℕ × Block)
  | [] => []
  | b :: rest => (log.start + tail + 1, buf b) :: logCopies log buf (tail + 1) rest

theorem logCopies_length (log : Log) (buf : ℕ → Block) (tail : ℕ) (lh : List ℕ) :
    (logCopies log buf tail lh).length = lh.length := by
  induction lh generalizing tail with
  | nil => rfl
  | cons b rest ih => simp [logCopies, ih]

/-- Copying writes data blocks of the log and nothing else. -/
theorem mem_logCopies (log : Log) (buf : ℕ → Block) (tail : ℕ) (lh : List ℕ) (w : ℕ × Block)
    (h : w ∈ logCopies log buf tail lh) : log.start + tail < w.1 ∧ w.1 ≤ log.start + tail + lh.length := by
  induction lh generalizing tail with
  | nil => cases h
  | cons b rest ih =>
    rw [List.length_cons]
    obtain rfl | h := List.mem_cons.mp h
    · exact ⟨by simp only; omega, by simp only; omega⟩
    · have := ih (tail + 1) h
      omega

/-- The copies depend on the listed blocks' contents alone. -/
theorem logCopies_congr (log : Log) (buf buf' : ℕ → Block) (tail : ℕ) (lh : List ℕ)
    (h : ∀ b ∈ lh, buf b = buf' b) : logCopies log buf tail lh = logCopies log buf' tail lh := by
  induction lh generalizing tail with
  | nil => rfl
  | cons b rest ih =>
    rw [logCopies, logCopies, h b List.mem_cons_self, ih _ fun c hc => h c (List.mem_cons_of_mem _ hc)]

/-- After copying, data block `tail + j` of the log holds the block listed at index `j`. -/
theorem applyWrites_logCopies (log : Log) (store buf : ℕ → Block) (tail : ℕ) (lh : List ℕ)
    (j : ℕ) (hj : j < lh.length) :
    applyWrites store (logCopies log buf tail lh) (log.start + tail + j + 1) = buf lh[j] := by
  induction lh generalizing store tail j with
  | nil => simp at hj
  | cons b rest ih =>
    rw [logCopies, applyWrites_cons]
    cases j with
    | zero =>
      rw [applyWrites_of_notMem]
      · simp
      · intro w hw
        have := mem_logCopies log buf (tail + 1) rest w hw
        omega
    | succ j =>
      rw [show log.start + tail + (j + 1) + 1 = log.start + (tail + 1) + j + 1 by omega, ih]
      rfl

/-- `write_log` issues exactly the copies, when no listed block is one of the log's own. -/
theorem writeLogLoop_eq (log : Log) (m : Machine) (tail : ℕ) (lh : List ℕ)
    (hout : ∀ b ∈ lh, b ≤ log.start + tail ∨ log.start + tail + lh.length < b) :
    writeLogLoop log m tail lh = m.issue (logCopies log m.buf tail lh) := by
  induction lh generalizing m tail with
  | nil => rw [writeLogLoop, logCopies, Machine.issue_nil]
  | cons b rest ih =>
    simp only [List.length_cons, List.mem_cons, forall_eq_or_imp] at hout
    have hrest : ∀ c ∈ rest, (m.bwrite (log.start + tail + 1) (m.bread b)).buf c = m.buf c := by
      intro c hc
      have hne : c ≠ log.start + tail + 1 := by
        have := hout.2 c hc
        omega
      exact update_of_ne hne _ _
    rw [writeLogLoop, ih]
    · rw [logCopies_congr log _ m.buf (tail + 1) rest hrest, Machine.bwrite_eq_issue, Machine.issue_issue]
      rfl
    · intro c hc
      have := hout.2 c hc
      omega

/-- `install_trans` writes each listed home block with its copy in the log. -/
theorem installTransLoop_eq (log : Log) (m : Machine) (value : ℕ → Block) (tail : ℕ) (lh : List ℕ)
    (hout : ∀ b ∈ lh, b ≤ log.start + tail ∨ log.start + tail + lh.length < b)
    (hcopy : ∀ j (hj : j < lh.length), m.buf (log.start + tail + j + 1) = value lh[j]) :
    installTransLoop log m tail lh = m.issue (lh.map fun b => (b, value b)) := by
  induction lh generalizing m tail with
  | nil => rw [installTransLoop, List.map_nil, Machine.issue_nil]
  | cons b rest ih =>
    simp only [List.length_cons, List.mem_cons, forall_eq_or_imp] at hout hcopy
    have hhead : m.bread (log.start + tail + 1) = value b := by
      simpa [Machine.bread] using hcopy 0 (by omega)
    rw [installTransLoop, hhead, ih]
    · rw [Machine.bwrite_eq_issue, Machine.issue_issue]
      rfl
    · intro c hc
      have := hout.2 c hc
      omega
    intro j hj
    have hne : log.start + (tail + 1) + j + 1 ≠ b := by omega
    have hnext := hcopy (j + 1) (by omega)
    rw [show log.start + tail + (j + 1) + 1 = log.start + (tail + 1) + j + 1 by omega] at hnext
    exact (update_of_ne hne _ _).trans hnext

/-- A header that a run of `log_write` calls on home blocks can have built. -/
structure HeaderOk (log : Log) : Prop where
  fits : log.lh.length ≤ LOGSIZE
  room : log.lh.length + 1 ≤ log.size ∨ log.lh = []
  home : ∀ b ∈ log.lh, b < 2 ^ 32 ∧ ¬ log.area b

variable {log log' : Log} {want disk : ℕ → Block}

/-- Recording a home block keeps the header well formed. -/
theorem HeaderOk.logAppend {b : ℕ} (h : log.HeaderOk) (hb : b < 2 ^ 32) (hhome : ¬ log.area b)
    (htest : log.logTest = .ok ()) : (log.logAppend b).HeaderOk := by
  obtain ⟨hfits, hroom, -⟩ := logTest_ok htest
  have hlength : (log.logAppend b).lh.length ≤ log.lh.length + 1 := by
    unfold Log.logAppend
    dsimp only
    split <;> simp
  refine ⟨by omega, .inl ?_, fun c hc => ?_⟩
  · change (log.logAppend b).lh.length + 1 ≤ log.size
    omega
  · rcases mem_logAppend.mp hc with hc | rfl
    · exact h.home c hc
    · exact ⟨hb, hhome⟩

/-- A run of non-panicking `log_write` calls on home blocks builds a well-formed header that lists these blocks. -/
theorem HeaderOk.logWrites (h : log.HeaderOk) (blocks : List ℕ) (hblocks : ∀ b ∈ blocks, b < 2 ^ 32 ∧ ¬ log.area b)
    (hrun : blocks.foldlM Log.logWrite log = .ok log') : log'.HeaderOk ∧ log'.start = log.start ∧
      log'.size = log.size ∧ ∀ b, b ∈ log'.lh ↔ b ∈ log.lh ∨ b ∈ blocks := by
  induction blocks generalizing log with
  | nil =>
    cases hrun
    exact ⟨h, rfl, rfl, by simp⟩
  | cons b rest ih =>
    rw [List.foldlM_cons] at hrun
    obtain ⟨_, hw, hrun⟩ := bind_eq_ok.mp hrun
    obtain ⟨htest, rfl⟩ := logWrite_ok hw
    have hb := hblocks b List.mem_cons_self
    have hnext := h.logAppend hb.1 hb.2 htest
    obtain ⟨hlog, hstart, hsize, hlist⟩ := ih hnext (fun c hc => hblocks c (List.mem_cons_of_mem _ hc)) hrun
    refine ⟨hlog, hstart, hsize, fun c => ?_⟩
    rw [hlist, mem_logAppend, List.mem_cons, or_assoc]

/-- The disk left by a recovery that starts on `disk` and stops after `k` writes. -/
def recoverPrefix (log : Log) (disk : ℕ → Block) (k : ℕ) : ℕ → Block :=
  applyWrites disk ((log.recoverFromLog (.boot disk)).2.issued.take k)

/-- The disk left by a recovery that runs to completion, after earlier ones that stopped
after `ks` writes each. -/
def recovered (log : Log) (disk : ℕ → Block) (ks : List ℕ) : ℕ → Block :=
  (log.recoverFromLog (.boot (ks.foldl log.recoverPrefix disk))).2.disk

/-- The header lists nothing and every block outside the log has its wanted contents. -/
structure Idle (log : Log) (want disk : ℕ → Block) : Prop where
  count : headCount (disk log.start) = 0
  home : ∀ b, ¬ log.area b → disk b = want b

/-- The header lists `log.lh`, whose wanted contents are in the log's data blocks. -/
structure Pending (log : Log) (want disk : ℕ → Block) : Prop where
  head : headList (disk log.start) = log.lh
  copies : ∀ j (hj : j < log.lh.length), disk (log.start + j + 1) = want log.lh[j]
  rest : ∀ b, ¬ log.area b → b ∉ log.lh → disk b = want b

theorem ne_start_of_not_area (hsize : 0 < log.size) {b : ℕ} (h : ¬ log.area b) : b ≠ log.start := by
  intro heq
  exact h ⟨by omega, by omega⟩

/-- Home blocks lie outside the header and the data blocks in use. -/
theorem HeaderOk.outside (h : log.HeaderOk) :
    ∀ b ∈ log.lh, b ≤ log.start + 0 ∨ log.start + 0 + log.lh.length < b := by
  intro b hb
  have hhome := (h.home b hb).2
  obtain hroom | hempty := h.room
  · simp only [area, not_and, not_lt] at hhome
    omega
  · simp [hempty] at hb

/-- Recovery installs what the header lists and then writes an empty header. -/
theorem recoverFromLog_issue (log : Log) (want disk : ℕ → Block)
    (hout : ∀ b ∈ log.lh, b ≤ log.start + 0 ∨ log.start + 0 + log.lh.length < b)
    (hhead : headList (disk log.start) = log.lh)
    (hcopy : ∀ j (hj : j < log.lh.length), disk (log.start + 0 + j + 1) = want log.lh[j]) :
    ∃ head, headCount head = 0 ∧ (log.recoverFromLog (.boot disk)).2 =
      (Machine.boot disk).issue ((log.lh.map fun b => (b, want b)) ++ [(log.start, head)]) := by
  have hread : log.readHead (.boot disk) = log := by
    simp [readHead, Machine.bread, Machine.boot, hhead]
  have hinstall : log.installTrans (.boot disk) =
      (Machine.boot disk).issue (log.lh.map fun b => (b, want b)) :=
    installTransLoop_eq log (.boot disk) want 0 log.lh hout hcopy
  refine ⟨putHead (((Machine.boot disk).issue (log.lh.map fun b => (b, want b))).buf log.start) [],
    by simpa using headCount_putHead _ [] (by simp), ?_⟩
  rw [recoverFromLog, hread, hinstall, ← Machine.issue_issue]
  rfl

/-- What a recovery of an idle disk does: it writes an empty header. -/
theorem Idle.recoverFromLog (h : log.Idle want disk) : ∃ head, headCount head = 0 ∧
      (log.recoverFromLog (.boot disk)).2 = (Machine.boot disk).issue [(log.start, head)] :=
  recoverFromLog_issue { log with lh := [] } want disk (by simp) (headList_of_count_zero _ h.count) (by simp)

/-- What a recovery of a pending disk does: it installs the transaction and clears the header. -/
theorem Pending.recoverFromLog (h : log.Pending want disk) (hok : log.HeaderOk) :
    ∃ head, headCount head = 0 ∧ (log.recoverFromLog (.boot disk)).2 =
      (Machine.boot disk).issue ((log.lh.map fun b => (b, want b)) ++ [(log.start, head)]) :=
  recoverFromLog_issue log want disk hok.outside h.head (by simpa using h.copies)

/-- An empty header makes a disk idle on which every block outside the log has its wanted contents. -/
theorem idle_clear (hsize : 0 < log.size) {head : Block} (hcount : headCount head = 0)
    (h : ∀ b, ¬ log.area b → disk b = want b) : log.Idle want (applyWrites disk [(log.start, head)]) := by
  refine ⟨by simpa using hcount, fun b hb => ?_⟩
  simpa [update_of_ne (ne_start_of_not_area hsize hb)] using h b hb

/-- Stopping recovery of an idle disk anywhere leaves an idle disk. -/
theorem Idle.recoverPrefix (h : log.Idle want disk) (hsize : 0 < log.size) (k : ℕ) :
    log.Idle want (log.recoverPrefix disk k) := by
  obtain ⟨head, hcount, hrun⟩ := h.recoverFromLog
  rw [Log.recoverPrefix, hrun]
  cases k with
  | zero => exact h
  | succ k =>
    rw [List.take_of_length_le (by simp [Machine.issue, Machine.boot])]
    exact idle_clear hsize hcount h.home

/-- Installing part of a pending transaction leaves it pending. -/
theorem Pending.install (h : log.Pending want disk) (hok : log.HeaderOk) (hsize : 0 < log.size) (k : ℕ) :
    log.Pending want (applyWrites disk ((log.lh.take k).map fun b => (b, want b))) := by
  -- Installing writes home blocks only, so the header and the copies are as before.
  have hkeep : ∀ b, b ∉ log.lh →
      applyWrites disk ((log.lh.take k).map fun b => (b, want b)) b = disk b := by
    intro b hb
    rw [applyWrites_map, if_neg fun hmem => hb (List.mem_of_mem_take hmem)]
  refine ⟨?_, ?_, ?_⟩
  · rw [hkeep _ fun hmem => ne_start_of_not_area hsize (hok.home _ hmem).2 rfl]
    exact h.head
  · intro j hj
    rw [hkeep]
    · exact h.copies j hj
    · intro hmem
      have := hok.outside _ hmem
      omega
  · intro b hb hmem
    rw [hkeep b hmem]
    exact h.rest b hb hmem

/-- Installing all of a pending transaction and clearing the header leaves an idle disk. -/
theorem Pending.clear (h : log.Pending want disk) (hsize : 0 < log.size) {head : Block} (hcount : headCount head = 0) :
    log.Idle want (applyWrites disk ((log.lh.map fun b => (b, want b)) ++ [(log.start, head)])) := by
  rw [applyWrites_append]
  refine idle_clear hsize hcount fun b hb => ?_
  rw [applyWrites_map]
  by_cases hmem : b ∈ log.lh
  · rw [if_pos hmem]
  · rw [if_neg hmem, h.rest b hb hmem]

/-- A disk in one of the two phases. -/
abbrev Recoverable (log : Log) (want disk : ℕ → Block) : Prop := log.Idle want disk ∨ log.Pending want disk

/-- Installing a pending transaction is interrupted in one of the two phases. -/
theorem Pending.take (h : log.Pending want disk) (hok : log.HeaderOk) (hsize : 0 < log.size) {head : Block}
    (hcount : headCount head = 0) (k : ℕ) :
    log.Recoverable want (applyWrites disk (((log.lh.map fun b => (b, want b)) ++ [(log.start, head)]).take k)) := by
  obtain hk | hk := Nat.lt_or_ge log.lh.length k
  · left
    rw [List.take_of_length_le (by simp; omega)]
    exact h.clear hsize hcount
  · right
    rw [List.take_append_of_le_length (by simpa using hk), ← List.map_take]
    exact h.install hok hsize k

/-- Stopping recovery anywhere leaves a disk in one of the two phases. -/
theorem Recoverable.recoverPrefix (hok : log.HeaderOk) (hsize : 0 < log.size) (h : log.Recoverable want disk) (k : ℕ) :
    log.Recoverable want (log.recoverPrefix disk k) := by
  obtain hidle | hpending := h
  · exact .inl (hidle.recoverPrefix hsize k)
  · obtain ⟨head, hcount, hrun⟩ := hpending.recoverFromLog hok
    rw [Log.recoverPrefix, hrun]
    exact hpending.take hok hsize hcount k

/-- A recovery that completes leaves an idle disk, from either phase. -/
theorem Recoverable.recoverFromLog (hok : log.HeaderOk) (hsize : 0 < log.size) (h : log.Recoverable want disk) :
    log.Idle want (log.recoverFromLog (.boot disk)).2.disk := by
  obtain hidle | hpending := h
  · obtain ⟨head, hcount, hrun⟩ := hidle.recoverFromLog
    rw [hrun]
    exact idle_clear hsize hcount hidle.home
  · obtain ⟨head, hcount, hrun⟩ := hpending.recoverFromLog hok
    rw [hrun]
    exact hpending.clear hsize hcount

/-- Any number of interrupted recoveries, then a complete one, ends on an idle disk. -/
theorem idle_recovered (hok : log.HeaderOk) (hsize : 0 < log.size) (h : log.Recoverable want disk) (ks : List ℕ) :
    log.Idle want (log.recovered disk ks) := by
  induction ks generalizing disk with
  | nil => exact h.recoverFromLog hok hsize
  | cons k ks ih => exact ih (h.recoverPrefix hok hsize k)

/-- The writes of a commit: the copies, the header, the homes and the cleared header. -/
theorem commit_issued (log : Log) (m : Machine) (hok : log.HeaderOk) (hne : log.lh ≠ []) :
    ∃ full cleared, headList full = log.lh ∧ headCount cleared = 0 ∧
      (log.commit m).2.issued = m.issued ++ (logCopies log m.buf 0 log.lh ++
        (log.start, full) :: ((log.lh.map fun b => (b, m.buf b)) ++ [(log.start, cleared)])) := by
  have hlog : log.writeLog m = m.issue (logCopies log m.buf 0 log.lh) :=
    writeLogLoop_eq log m 0 log.lh hok.outside
  let full := putHead ((m.issue (logCopies log m.buf 0 log.lh)).buf log.start) log.lh
  have hhead : log.writeHead (log.writeLog m) =
      m.issue (logCopies log m.buf 0 log.lh ++ [(log.start, full)]) := by
    rw [hlog, ← Machine.issue_issue]
    rfl
  have hinstall : log.installTrans (log.writeHead (log.writeLog m)) =
      m.issue (logCopies log m.buf 0 log.lh ++ [(log.start, full)] ++ log.lh.map fun b => (b, m.buf b)) := by
    rw [hhead, ← Machine.issue_issue m _ (log.lh.map _)]
    apply installTransLoop_eq log _ m.buf 0 log.lh hok.outside
    intro j hj
    change applyWrites m.buf _ _ = _
    rw [applyWrites_append]
    change update (applyWrites m.buf (logCopies log m.buf 0 log.lh)) log.start full _ = _
    rw [update_of_ne (by omega), applyWrites_logCopies log m.buf m.buf 0 log.lh j hj]
  refine ⟨full, putHead ((log.installTrans (log.writeHead (log.writeLog m))).buf log.start) [],
    headList_putHead _ _ hok.fits fun b hb => (hok.home b hb).1,
    by simpa using headCount_putHead _ [] (by simp), ?_⟩
  rw [commit, if_pos (List.length_pos_of_ne_nil hne)]
  change (log.installTrans (log.writeHead (log.writeLog m))).issued ++ [(log.start, _)] = _
  rw [hinstall]
  simp [Machine.issue, Machine.bread]

/-- Outside the log a commit writes each listed block once, with its cached contents. -/
theorem commit_homes (log : Log) (m : Machine) (hok : log.HeaderOk) :
    ∃ writes, (log.commit m).2.issued = m.issued ++ writes ∧
      writes.filter (fun w => ¬ log.area w.1) = log.lh.map fun b => (b, m.buf b) := by
  by_cases hne : log.lh = []
  · exact ⟨[], by simp [commit, hne], by simp [hne]⟩
  obtain ⟨full, cleared, -, -, hissued⟩ := commit_issued log m hok hne
  have hroom : log.lh.length + 1 ≤ log.size := hok.room.resolve_right hne
  have hstart : log.area log.start := ⟨le_rfl, by omega⟩
  have hcopies : (logCopies log m.buf 0 log.lh).filter (fun w => ¬ log.area w.1) = [] := by
    rw [List.filter_eq_nil_iff]
    intro w hw
    have hin := mem_logCopies log m.buf 0 log.lh w hw
    have harea : log.area w.1 := ⟨by omega, by omega⟩
    simpa using harea
  have hhomes : (log.lh.map fun b => (b, m.buf b)).filter (fun w => ¬ log.area w.1) =
      log.lh.map fun b => (b, m.buf b) := by
    rw [List.filter_eq_self]
    intro w hw
    obtain ⟨b, hb, rfl⟩ := List.mem_map.mp hw
    simpa using (hok.home b hb).2
  refine ⟨_, hissued, ?_⟩
  rw [List.filter_append, hcopies, List.filter_cons_of_neg (by simpa using hstart), List.filter_append, hhomes,
    List.filter_cons_of_neg (by simpa using hstart)]
  simp

/-- A commit stopped before its first header write leaves the old contents in place, and the transaction recoverable
after it. -/
theorem recoverable_commit (log : Log) (buf disk : ℕ → Block) (hok : log.HeaderOk) (hsize : 0 < log.size)
    (hclean : headCount (disk log.start) = 0) (k : ℕ) :
    log.Recoverable (if k ≤ log.lh.length then disk else fun b => if b ∈ log.lh then buf b else disk b)
      (applyWrites disk ((log.commit ⟨buf, disk, []⟩).2.issued.take k)) := by
  by_cases hne : log.lh = []
  · have hnothing : (log.commit ⟨buf, disk, []⟩).2.issued = [] := by simp [commit, hne]
    rw [hnothing, List.take_nil]
    exact .inl ⟨hclean, fun b _ => by simp [hne]⟩
  obtain ⟨full, cleared, hfull, hcleared, hissued⟩ := commit_issued log ⟨buf, disk, []⟩ hok hne
  rw [List.nil_append] at hissued
  have hroom : log.lh.length + 1 ≤ log.size := hok.room.resolve_right hne
  have hkeep : ∀ ws ⊆ logCopies log buf 0 log.lh, ∀ b, b = log.start ∨ ¬ log.area b →
      applyWrites disk ws b = disk b := by
    intro ws hws b hb
    apply applyWrites_of_notMem
    intro w hw heq
    have hin := mem_logCopies log buf 0 log.lh w (hws hw)
    obtain rfl | hb := hb
    · omega
    · exact hb ⟨by omega, by omega⟩
  rw [hissued]
  by_cases hk : k ≤ log.lh.length
  · have hold := hkeep _ (List.take_subset k _)
    rw [if_pos hk, List.take_append_of_le_length (by rwa [logCopies_length])]
    exact .inl ⟨by rw [hold _ (.inl rfl)]; exact hclean, fun b hb => hold b (.inr hb)⟩
  rw [if_neg hk]
  -- The disk just after the first header write holds the whole transaction.
  let committed := update (applyWrites disk (logCopies log buf 0 log.lh)) log.start full
  have hpending : log.Pending (fun b => if b ∈ log.lh then buf b else disk b) committed := by
    refine ⟨by simpa [committed] using hfull, ?_, ?_⟩
    · intro j hj
      have hcopy := applyWrites_logCopies log disk buf 0 log.lh j hj
      simp only [committed, update_of_ne (show log.start + j + 1 ≠ log.start by omega),
        List.getElem_mem, if_true]
      exact hcopy
    intro b hb hmem
    simp only [committed, update_of_ne (ne_start_of_not_area hsize hb), if_neg hmem]
    exact hkeep _ (List.Subset.refl _) b (.inr hb)
  have hhomes : (log.lh.map fun b => (b, buf b)) =
      log.lh.map fun b => (b, (fun b => if b ∈ log.lh then buf b else disk b) b) :=
    List.map_congr_left fun b hb => by simp only [hb, if_true]
  obtain ⟨j, rfl⟩ : ∃ j, k = (logCopies log buf 0 log.lh).length + (j + 1) :=
    ⟨k - log.lh.length - 1, by rw [logCopies_length]; omega⟩
  rw [List.take_length_add_append, List.take_succ_cons, applyWrites_append, applyWrites_cons, hhomes]
  exact hpending.take hok hsize hcleared j

/-- A transaction is all or nothing across crashes.

The blocks passed to `log_write` are logged. The commit stops after any `k` of its writes; recovery is then started and
stopped any number of times, after `ks` writes each, before one recovery completes. The home blocks then hold their old
contents if the first header write was not reached, and the logged contents otherwise. -/
theorem commit_crash_atomic (buf disk : ℕ → Block) (log log' : Log) (hsize : 0 < log.size)
    (hclean : headCount (disk log.start) = 0) (hempty : log.lh = []) (blocks : List ℕ)
    (hblocks : ∀ b ∈ blocks, b < 2 ^ 32 ∧ ¬ log.area b)
    (hrun : blocks.foldlM Log.logWrite log = .ok log') (k : ℕ) (ks : List ℕ) :
    let final := log'.recovered (applyWrites disk ((log'.commit ⟨buf, disk, []⟩).2.issued.take k)) ks
    (∀ b, b ∈ log'.lh ↔ b ∈ blocks) ∧
      (k ≤ log'.lh.length → ∀ b, ¬ log.area b → final b = disk b) ∧
      (log'.lh.length < k → ∀ b, ¬ log.area b → final b = if b ∈ blocks then buf b else disk b) ∧
      headCount (final log.start) = 0 := by
  have hinit : log.HeaderOk := ⟨by simp [hempty], .inr hempty, by simp [hempty]⟩
  obtain ⟨hok, hstart, hsize', hlist⟩ := hinit.logWrites blocks hblocks hrun
  have hmem : ∀ b, b ∈ log'.lh ↔ b ∈ blocks := by simpa [hempty] using hlist
  have harea : ∀ b, ¬ log.area b → ¬ log'.area b := by
    intro b hb
    simpa only [area, hstart, hsize'] using hb
  have hpos : 0 < log'.size := by omega
  rw [← hstart] at hclean ⊢
  have hidle := idle_recovered hok hpos (recoverable_commit log' buf disk hok hpos hclean k) ks
  refine ⟨hmem, fun hle b hb => ?_, fun hlt b hb => ?_, hidle.count⟩
  · exact (hidle.home b (harea b hb)).trans (by rw [if_pos hle])
  · refine (hidle.home b (harea b hb)).trans ?_
    rw [if_neg (Nat.not_le.mpr hlt)]
    simp only [hmem]

/-- Two blocks are logged, one of them twice. The commit stops right after its header write, and a recovery before its
first write: the next recovery installs both. -/
theorem commit_crash_atomic_two_blocks :
    let log : Log := ⟨2, LOGSIZE, 1, false, [59, 60]⟩
    let buf : ℕ → Block := fun b _ => UInt8.ofNat b
    let final := log.recovered (applyWrites (fun _ _ => 0) ((log.commit ⟨buf, fun _ _ => 0, []⟩).2.issued.take 3)) [0]
    final 59 = (fun _ => 59) ∧ final 60 = (fun _ => 60) ∧ final 61 = fun _ => 0 := by
  intro log buf final
  obtain ⟨-, -, hall, -⟩ := commit_crash_atomic buf (fun _ _ => 0) ⟨2, LOGSIZE, 1, false, []⟩ log (by decide)
    (by decide) rfl [59, 60, 59] (by decide) rfl 3 [0]
  exact ⟨hall (by decide) 59 (by decide), hall (by decide) 60 (by decide), hall (by decide) 61 (by decide)⟩

end Log

end Xv6
