import Xv6.Param
import Xv6.Lib.Run
import Xv6.Lib.Writes

/-!
# The redo log: recording, committing and recovering a transaction

The functions of `log.c` over an explicit machine state. `buf` is what `bread` returns
for each block, so it shows cached changes that are not on the disk yet; `bwrite` goes
through to the disk at once and is recorded in `issued`. A machine that stops keeps a
prefix of the issued writes and loses `buf`.

The in-memory header is the list of its first `n` entries. On disk it is the header
block's bytes: a 32-bit count followed by 32-bit block numbers.
-/

namespace Xv6

open Lib

/-- The buffer cache as the log sees it, the disk below it, and the writes issued so far. -/
structure Machine where
  buf : ℕ → Block
  disk : ℕ → Block
  issued : List (ℕ × Block)

namespace Machine

/-- The contents of a block, from the cache when it holds a newer copy. -/
def bread (m : Machine) (b : ℕ) : Block := m.buf b

/-- Write a buffer's contents through to the disk. -/
def bwrite (m : Machine) (b : ℕ) (data : Block) : Machine where
  buf := Function.update m.buf b data
  disk := Function.update m.disk b data
  issued := m.issued ++ [(b, data)]

/-- The machine just after a reboot: nothing is cached. -/
def boot (disk : ℕ → Block) : Machine := ⟨disk, disk, []⟩

end Machine

/-- `struct log`, with the header's first `n` entries as the list `lh`. -/
structure Log where
  start : ℕ
  size : ℕ
  outstanding : ℤ
  committing : Bool
  lh : List ℕ

namespace Log

/-- The block numbers of the on-disk log: its header and its data blocks. -/
def area (log : Log) (b : ℕ) : Prop := log.start ≤ b ∧ b < log.start + log.size

instance (log : Log) (b : ℕ) : Decidable (log.area b) := inferInstanceAs (Decidable (_ ∧ _))

/-- The signed count in the first word of a header block. -/
def headCount (head : Block) : ℤ := (BitVec.ofNat 32 (Buffer.getLE head 0 4)).toInt

/-- Entry `i` of the block numbers stored in a header block. -/
def headEntry (head : Block) (i : ℕ) : ℕ := Buffer.getLE head (4 * (i + 1)) 4

/-- The in-memory header `read_head` takes from a header block. -/
def headList (head : Block) : List ℕ := (List.range (headCount head).toNat).map (headEntry head)

/-- The header block `write_head` builds over the old one; entries past the last one keep
their old bytes. -/
def putHead (head : Block) (lh : List ℕ) : Block :=
  Buffer.putWords (Buffer.putLE head 0 4 lh.length) 4 lh

/-- Read the log header from disk into the in-memory log header. -/
def readHead (log : Log) (m : Machine) : Log := { log with lh := headList (m.bread log.start) }

/-- Write the in-memory log header to disk. -/
def writeHead (log : Log) (m : Machine) : Machine :=
  m.bwrite log.start (putHead (m.bread log.start) log.lh)

/-- The loop of `write_log` from index `tail` on: copy cached blocks to the log. -/
def writeLogLoop (log : Log) (m : Machine) (tail : ℕ) : List ℕ → Machine
  | [] => m
  | b :: rest => writeLogLoop log (m.bwrite (log.start + tail + 1) (m.bread b)) (tail + 1) rest

/-- Copy modified blocks from the cache to the log. -/
def writeLog (log : Log) (m : Machine) : Machine := writeLogLoop log m 0 log.lh

/-- The loop of `install_trans` from index `tail` on: copy log blocks to their homes. -/
def installTransLoop (log : Log) (m : Machine) (tail : ℕ) : List ℕ → Machine
  | [] => m
  | b :: rest => installTransLoop log (m.bwrite b (m.bread (log.start + tail + 1))) (tail + 1) rest

/-- Copy committed blocks from the log to their home location. -/
def installTrans (log : Log) (m : Machine) : Machine := installTransLoop log m 0 log.lh

/-- Commit the transaction in the in-memory header, if it is not empty. -/
def commit (log : Log) (m : Machine) : Log × Machine :=
  if log.lh.length > 0 then
    let m := writeLog log m
    let m := writeHead log m
    let m := installTrans log m
    let log := { log with lh := [] }
    (log, writeHead log m)
  else (log, m)

/-- Finish a committed transaction found on the disk, then clear the log. -/
def recoverFromLog (log : Log) (m : Machine) : Log × Machine :=
  let log := readHead log m
  let m := installTrans log m
  let log := { log with lh := [] }
  (log, writeHead log m)

/-- The tests of `log_write`, made before it takes `log.lock`. -/
def logTest (log : Log) : Except Panic Unit :=
  if log.lh.length ≥ LOGSIZE ∨ (log.lh.length : ℤ) ≥ (log.size : ℤ) - 1 then
    .error "too big a transaction"
  else if log.outstanding < 1 then
    .error "log_write outside of trans"
  else .ok ()

/-- What `log_write` does with `log.lock` held: it lists the block, absorbing one that is listed already. -/
def logAppend (log : Log) (b : ℕ) : Log := { log with lh := if b ∈ log.lh then log.lh else log.lh ++ [b] }

/-- Record a block in the transaction. -/
def logWrite (log : Log) (b : ℕ) : Except Panic Log := log.logTest.map fun _ => log.logAppend b

theorem mem_logAppend {log : Log} {b c : ℕ} : c ∈ (log.logAppend b).lh ↔ c ∈ log.lh ∨ c = b := by
  unfold logAppend
  dsimp only
  split
  · next hmem => exact ⟨.inl, fun hc => hc.elim id fun heq => heq ▸ hmem⟩
  · simp

/-- The tests pass inside a transaction with room for one more block. -/
theorem logTest_ok {log : Log} {r : Unit} (h : log.logTest = .ok r) :
    log.lh.length < LOGSIZE ∧ log.lh.length + 1 < log.size ∧ 1 ≤ log.outstanding := by
  unfold logTest at h
  split_ifs at h with hroom hop
  omega

/-- Inside a transaction the tests fail over its size only. -/
theorem logTest_error {log : Log} {e : Panic} (hop : 1 ≤ log.outstanding) :
    log.logTest = .error e ↔
      e = "too big a transaction" ∧ (LOGSIZE ≤ log.lh.length ∨ (log.size : ℤ) - 1 ≤ log.lh.length) := by
  unfold logTest
  rw [if_neg (not_lt.mpr hop)]
  split <;> simp_all [eq_comm]

/-- A `log_write` that returns has listed the block after the tests. -/
theorem logWrite_ok {log log' : Log} {b : ℕ} (h : log.logWrite b = .ok log') :
    log.logTest = .ok () ∧ log' = log.logAppend b := by
  obtain ⟨_, htest, heq⟩ := map_eq_ok.mp h
  exact ⟨htest, heq.symm⟩

/-! ### The header block -/

/-- The count word of a header block holds the length of the list it was built from. -/
theorem headCount_putHead (head : Block) (lh : List ℕ) (hlen : lh.length ≤ LOGSIZE) :
    headCount (putHead head lh) = lh.length := by
  have hword : Buffer.getLE (putHead head lh) 0 4 = lh.length := by
    rw [putHead, Buffer.getLE_putWords_of_disjoint _ _ _ _ _ (by omega), Buffer.getLE_putLE _ _ _ _ (by decide)]
    exact Nat.mod_eq_of_lt (by simp only [LOGSIZE, MAXOPBLOCKS] at hlen; omega)
  simp only [LOGSIZE, MAXOPBLOCKS] at hlen
  rw [headCount, hword, BitVec.toInt_ofNat', Int.bmod_eq_of_le (by omega) (by omega)]

/-- A header that fits is read back exactly. -/
theorem headList_putHead (head : Block) (lh : List ℕ) (hlen : lh.length ≤ LOGSIZE)
    (hword : ∀ b ∈ lh, b < 2 ^ 32) : headList (putHead head lh) = lh := by
  have hfit : 4 + 4 * lh.length ≤ BSIZE := by
    simp only [LOGSIZE, MAXOPBLOCKS, BSIZE] at hlen ⊢
    omega
  rw [headList, headCount_putHead head lh hlen, Int.toNat_natCast]
  apply List.ext_getElem
  · simp
  · intro j hj hj'
    rw [List.getElem_map, List.getElem_range, headEntry, putHead, show 4 * (j + 1) = 4 + 4 * j by omega,
      Buffer.getLE_putWords _ _ _ hfit j hj', Nat.mod_eq_of_lt (hword _ (List.getElem_mem hj'))]

/-- A header whose count is zero lists no block. -/
theorem headList_of_count_zero (head : Block) (h : headCount head = 0) : headList head = [] := by
  simp [headList, h]

end Log

end Xv6
