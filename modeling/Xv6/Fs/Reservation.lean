import Xv6.Fs.Mkfs

/-!
# The transactions of `filewrite`

`filewrite` cuts a write into chunks and makes each one a transaction of its own. The number
of distinct blocks a chunk passes to `log_write` is the number of data blocks it touches, plus
the free map block if one of them is new, plus the indirect block if one of its entries is
filled, plus the inode block if the file grows. `begin_op` reserves `MAXOPBLOCKS` blocks.
-/

namespace Xv6

open Lib Lib.Buffer
open Finset (mem_filter mem_biUnion mem_union mem_image disjoint_left)

/-- Kinds of open files. -/
inductive FileType
  | FD_NONE
  | FD_PIPE
  | FD_INODE
  deriving DecidableEq, Repr

/-- An open file. -/
structure File where
  type : FileType
  readable : Bool
  writable : Bool
  ip : Fin NINODE
  off : UInt32

/-- One transaction of `filewrite`: the state its `begin_op` leaves, the offset and length it
writes, and the blocks passed to `log_write` before its `end_op`. -/
structure Transaction where
  before : Fs
  file : File
  n1 : ℕ
  blocks : List ℕ

/-- The most bytes `filewrite` writes in one transaction. -/
def filewriteMax : ℕ := (LOGSIZE - 1 - 1 - 2) / 2 * 512

/-- A transaction starts with nothing logged. -/
def beginOp (fs : Fs) : Fs := { fs with logged := [] }

/-- What `filewrite` does between `begin_op` and `end_op`. -/
def writeChunk (fs : Fs) (f : File) (addr : ℕ → UInt8) (n1 : ℕ) : Except Panic (ℤ × File × Fs) := do
  let fs ← ilock fs f.ip
  let (r, fs) ← writei fs f.ip addr f.off (UInt32.ofNat n1)
  let f := if 0 < r then { f with off := f.off + UInt32.ofNat r.toNat } else f
  let fs ← iunlock fs f.ip
  .ok (r, f, fs)

/-- The loop of `filewrite` with `left = n - i` bytes to go: the transactions, and whether all
bytes were written. -/
def filewriteLoop (fs : Fs) (f : File) (addr : ℕ → UInt8) (left : ℕ) :
    List Transaction × Except Panic (Bool × File × Fs) :=
  if left = 0 then ([], .ok (true, f, fs))
  else
    let n1 := min left filewriteMax
    match writeChunk (beginOp fs) f addr n1 with
    | .error e => ([], .error e)
    | .ok (r, f', fs') =>
      let t := ⟨beginOp fs, f, n1, fs'.logged⟩
      if r < 0 then ([t], .ok (false, f', fs'))
      else if r ≠ n1 then ([t], .error "short filewrite")
      else
        let (ts, result) := filewriteLoop fs' f' (fun j => addr (j + n1)) (left - n1)
        (t :: ts, result)
termination_by left
decreasing_by
  have : 0 < filewriteMax := by decide
  omega

/-- Write to file `f`; `pipewrite` is what writing to its pipe would return. -/
def filewrite (fs : Fs) (f : File) (addr : ℕ → UInt8) (n : ℤ) (pipewrite : ℤ) :
    List Transaction × Except Panic (ℤ × File × Fs) :=
  if !f.writable then ([], .ok (-1, f, fs))
  else
    match f.type with
    | .FD_PIPE => ([], .ok (pipewrite, f, fs))
    | .FD_INODE =>
      let (ts, result) := filewriteLoop fs f addr n.toNat
      (ts, result.map fun (all, f, fs) => (if all ∧ 0 ≤ n then n else -1, f, fs))
    | .FD_NONE => ([], .error "filewrite")

/-- Block `bn` of the inode in `ip` has no address. -/
def unmapped (fs : Fs) (ip : Fin NINODE) (bn : ℕ) : Prop := slotAddr fs.disk (fs.din ip) (bnSlot bn) = 0

instance (fs : Fs) (ip : Fin NINODE) (bn : ℕ) : Decidable (unmapped fs ip bn) :=
  inferInstanceAs (Decidable (_ = _))

/-- The number of distinct blocks logged by writing `n1` bytes at `off`. -/
def chunkCost (fs : Fs) (ip : Fin NINODE) (off n1 : ℕ) : ℕ :=
  if off + n1 ≤ MAXFILE * BSIZE then
    (off % BSIZE + n1 + (BSIZE - 1)) / BSIZE +
      (if ∃ bn ∈ touchedBlocks off n1, unmapped fs ip bn then 1 else 0) +
      (if ∃ bn ∈ touchedBlocks off n1, NDIRECT ≤ bn ∧ unmapped fs ip bn then 1 else 0) +
      (if (fs.din ip).size.toNat < off + n1 then 1 else 0)
  else 0

/-- The number of blocks in which `n` bytes from `off` on lie. -/
theorem card_touchedBlocks {off n : ℕ} (hn : 0 < n) :
    (touchedBlocks off n).card = (off % BSIZE + n + (BSIZE - 1)) / BSIZE := by
  rw [touchedBlocks, if_neg (by omega), Nat.card_Ico]
  simp only [BSIZE]
  omega

section Count

variable {fs fs₁ : Fs} {ip : Fin NINODE} {src : ℕ → UInt8} {off n : ℕ}

theorem unmapped_iff (h : fs.Held ip) (bn : ℕ) :
    unmapped fs ip bn ↔ (fs.view ip).own (fs.inum ip, bnSlot bn) = 0 := by
  rw [unmapped, fs.own_view ip h.live]

/-- Some slot is missing when some block is: an indirect block is only missing with its entries. -/
theorem missing_nonempty_iff (h : fs.Held ip) (B : Finset ℕ) :
    (missing fs ip (B.biUnion bnSlots)).Nonempty ↔ ∃ bn ∈ B, unmapped fs ip bn := by
  constructor
  · rintro ⟨k, hk⟩
    obtain ⟨hmem, hempty⟩ := mem_filter.mp hk
    obtain ⟨bn, hbn, hslot⟩ := mem_biUnion.mp hmem
    refine ⟨bn, hbn, (unmapped_iff h bn).mpr ?_⟩
    rcases mem_bnSlots.mp hslot with rfl | ⟨hle, rfl⟩
    · exact hempty
    · rw [show bnSlot bn = bn + 1 from if_neg (by omega)]
      exact fs.own_entry_eq_zero ip h.live hempty (by omega)
  · rintro ⟨bn, hbn, hunmapped⟩
    exact ⟨bnSlot bn, mem_filter.mpr
      ⟨bnSlot_mem_biUnion.mpr hbn, (unmapped_iff h bn).mp hunmapped⟩⟩

/-- One element, under a condition. -/
def onlyIf (p : Prop) [Decidable p] (c : ℕ) : Finset ℕ := if p then {c} else ∅

theorem mem_onlyIf {p : Prop} [Decidable p] {c x : ℕ} : x ∈ onlyIf p c ↔ p ∧ x = c := by
  unfold onlyIf
  split <;> simp [*]

theorem card_onlyIf {p : Prop} [Decidable p] (c : ℕ) : (onlyIf p c).card = if p then 1 else 0 := by
  unfold onlyIf
  split <;> simp

variable {tail : List ℕ}

/-- With a free map of one block, the blocks logged by a write and its `iupdate`. -/
theorem toFinset_tail (h : fs.Held ip) (hw : Written fs fs₁ ip src off n) (hsize : fs.sb.size ≤ BPB)
    (hmem : ∀ c, c ∈ tail ↔ writeLogs fs fs₁ ip (touchedBlocks off n) c ∨
      (fs.din ip).size.toNat < off + n ∧ c = IBLOCK (fs.inum ip) fs.sb) :
    tail.toFinset = (touchedBlocks off n).image (fun bn => (fs₁.view ip).own (fs.inum ip, bnSlot bn)) ∪
      onlyIf (∃ bn ∈ touchedBlocks off n, unmapped fs ip bn) fs.sb.bmapstart ∪
      onlyIf (∃ bn ∈ touchedBlocks off n, NDIRECT ≤ bn ∧ unmapped fs ip bn)
        ((fs₁.view ip).own (fs.inum ip, NDIRECT)) ∪
      onlyIf ((fs.din ip).size.toNat < off + n) (IBLOCK (fs.inum ip) fs.sb) := by
  have hmap : ∀ k ∈ missing fs ip (touchedSlots off n),
      BBLOCK ((fs₁.view ip).own (fs.inum ip, k)) fs.sb = fs.sb.bmapstart := by
    intro k hk
    have hfilled := hw.grows.filled k (mem_filter.mp hk).1
    have hlt := (hw.grows.held.owned.own_area _ hfilled).2.1
    rw [Fs.view_sb, hw.grows.sb] at hlt
    rw [BBLOCK, Nat.div_eq_of_lt (by omega), Nat.zero_add]
  ext c
  simp only [List.mem_toFinset, hmem, mem_union, mem_image, mem_onlyIf, writeLogs]
  refine or_congr_left ?_
  rw [← or_assoc]
  refine or_congr (or_congr ?_ ?_) ?_
  · simp only [eq_comm]
  · rw [← missing_nonempty_iff h]
    constructor
    · rintro ⟨k, hk, rfl⟩
      exact ⟨⟨k, hk⟩, hmap k hk⟩
    · rintro ⟨⟨k, hk⟩, rfl⟩
      exact ⟨k, hk, (hmap k hk).symm⟩
  · simp only [unmapped_iff h]
    constructor
    · rintro ⟨bn, hbn, hle, hempty, rfl⟩
      exact ⟨⟨bn, hbn, hle, hempty⟩, rfl⟩
    · rintro ⟨⟨bn, hbn, hle, hempty⟩, rfl⟩
      exact ⟨bn, hbn, hle, hempty, rfl⟩

/-- The number of distinct blocks logged by a write and its `iupdate`. -/
theorem card_tail (h : fs.Held ip) (hw : Written fs fs₁ ip src off n) (hsize : fs.sb.size ≤ BPB) (hn : 0 < n)
    (hmax : off + n ≤ MAXFILE * BSIZE) (hmem : ∀ c, c ∈ tail ↔ writeLogs fs fs₁ ip (touchedBlocks off n) c ∨
      (fs.din ip).size.toNat < off + n ∧ c = IBLOCK (fs.inum ip) fs.sb) :
    tail.toFinset.card = chunkCost fs ip off n := by
  have harea : ∀ k ∈ touchedSlots off n, (fs₁.view ip).own (fs.inum ip, k) ≠ 0 ∧
      fs.sb.datastart ≤ (fs₁.view ip).own (fs.inum ip, k) ∧ (fs₁.view ip).own (fs.inum ip, k) < fs.sb.size := by
    intro k hk
    have hfilled := hw.grows.filled k hk
    obtain ⟨hlo, hhi, -⟩ := hw.grows.held.owned.own_area _ hfilled
    rw [Fs.view_sb, hw.grows.sb] at hlo hhi
    exact ⟨hfilled, hlo, hhi⟩
  have hslot : ∀ bn ∈ touchedBlocks off n, bnSlot bn ∈ touchedSlots off n := fun bn hbn =>
    bnSlot_mem_biUnion.mpr hbn
  have hind : ∀ bn ∈ touchedBlocks off n, NDIRECT ≤ bn → NDIRECT ∈ touchedSlots off n := fun bn hbn hle =>
    mem_biUnion.mpr ⟨bn, hbn, mem_bnSlots.mpr (.inr ⟨hle, rfl⟩)⟩
  have hinj := hw.grows.held.owned.exact.inj
  have hinode : IBLOCK (fs.inum ip) fs.sb < fs.sb.bmapstart := h.owned.layout.inodes_lt _ h.live.1
  have hbmap : ∀ b < fs.sb.size, fs.sb.bmapstart < fs.sb.datastart := fun b hb =>
    (bmapstart_le_BBLOCK b fs.sb).trans_lt (h.owned.layout.bmap_lt b hb)
  rw [toFinset_tail h hw hsize hmem, Finset.card_union_of_disjoint, Finset.card_union_of_disjoint,
    Finset.card_union_of_disjoint, Finset.card_image_of_injOn, card_onlyIf, card_onlyIf, card_onlyIf, chunkCost,
    if_pos hmax, card_touchedBlocks hn]
  · intro a ha b hb heq
    exact bnSlot_inj (Prod.mk.inj (hinj _ _ (harea _ (hslot a ha)).1 heq)).2
  -- the free map block is not a data block
  · rw [disjoint_left]
    intro c hc hc'
    obtain ⟨bn, hbn, rfl⟩ := mem_image.mp hc
    obtain ⟨-, hlo, hhi⟩ := harea _ (hslot bn hbn)
    have := hbmap _ hhi
    have := (mem_onlyIf.mp hc').2
    omega
  -- the indirect block is neither
  · rw [disjoint_left]
    intro c hc hc'
    obtain ⟨⟨bn', hbn', hle, -⟩, rfl⟩ := mem_onlyIf.mp hc'
    obtain ⟨hne, hlo, hhi⟩ := harea _ (hind bn' hbn' hle)
    rcases mem_union.mp hc with hc | hc
    · obtain ⟨bn, hbn, heq⟩ := mem_image.mp hc
      exact bnSlot_ne bn (Prod.mk.inj (hinj _ _ (harea _ (hslot bn hbn)).1 heq)).2
    · have := hbmap _ hhi
      have := (mem_onlyIf.mp hc).2
      omega
  -- the inode block comes before all of them
  · rw [disjoint_left]
    intro c hc hc'
    obtain ⟨-, rfl⟩ := mem_onlyIf.mp hc'
    rcases mem_union.mp hc with hc | hc
    · rcases mem_union.mp hc with hc | hc
      · obtain ⟨bn, hbn, heq⟩ := mem_image.mp hc
        obtain ⟨-, hlo, hhi⟩ := harea _ (hslot bn hbn)
        have := hbmap _ hhi
        omega
      · have := (mem_onlyIf.mp hc).2
        omega
    · obtain ⟨⟨bn, hbn, hle, -⟩, heq⟩ := mem_onlyIf.mp hc
      obtain ⟨-, hlo, hhi⟩ := harea _ (hind bn hbn hle)
      have := hbmap _ hhi
      omega

end Count

/-- A regular file, open for writing, whose inode is in memory and not locked, with any set of
its blocks allocated, on an image whose free map is one block. -/
structure RegularFile (fs : Fs) (f : File) : Prop where
  inode : f.type = .FD_INODE
  writable : f.writable = true
  ref : 1 ≤ (fs.icache f.ip).ref
  idle : (fs.icache f.ip).busy = false
  valid : (fs.icache f.ip).valid = true
  type : (fs.din f.ip).type = T_FILE
  held : fs.Held f.ip
  off : f.off.toNat ≤ (fs.din f.ip).size.toNat
  bitmap : fs.sb.size ≤ BPB

variable {fs fs' : Fs} {ip : Fin NINODE} {f f' : File} {addr : ℕ → UInt8}

/-- Flags, reference counts and the log are not part of the view. -/
theorem Fs.view_congr (hsb : fs'.sb = fs.sb) (hdisk : fs'.disk = fs.disk) (hinum : fs'.inum ip = fs.inum ip)
    (hdin : fs'.din ip = fs.din ip) : fs'.view ip = fs.view ip := by
  have htable : fs'.table = fs.table := by
    funext i
    rw [table, table, hsb, hdisk]
  rw [view, view, hsb, hdisk, hinum, hdin, htable]

theorem Fs.Held.congr (h : fs.Held ip) (hsb : fs'.sb = fs.sb) (hdisk : fs'.disk = fs.disk)
    (hinum : fs'.inum ip = fs.inum ip) (hdin : fs'.din ip = fs.din ip) : fs'.Held ip := by
  have hview := Fs.view_congr hsb hdisk hinum hdin
  exact ⟨hview ▸ h.owned, by rw [hview, hinum]; exact h.live⟩

/-- `iupdate` after a change of the size keeps the view well formed. -/
theorem Fs.Held.iupdate (h : fs.Held ip) (size : UInt32) :
    (iupdate (fs.setDin ip { fs.din ip with size := size }) ip).Held ip := by
  have hlt : (fs.setDin ip { fs.din ip with size := size }).inum ip < fs.sb.ninodes := by
    rw [Fs.setDin_inum]
    exact h.live.1
  have hsame := (fs.same_setSize ip size).trans (Fs.same_iupdate h.owned.layout hlt)
  have hview : (Xv6.iupdate (fs.setDin ip { fs.din ip with size := size }) ip).view ip =
      (Xv6.iupdate (fs.setDin ip { fs.din ip with size := size }) ip).image := by
    apply Fs.view_eq_image
    rw [Fs.table_iupdate hlt]
    exact Function.update_self _ _ _
  refine ⟨by rw [hview]; exact hsame.owned h.owned, ?_⟩
  rw [hview, hsame.live]
  change (fs.view ip).live ((fs.setDin ip { fs.din ip with size := size }).inum ip)
  rw [Fs.setDin_inum]
  exact h.live

/-- What one transaction does to a regular file. -/
structure ChunkDone (fs fs' : Fs) (ip : Fin NINODE) (off n : ℕ) : Prop where
  held : fs'.Held ip
  sb : fs'.sb = fs.sb
  node : fs'.icache ip = { fs.icache ip with din := fs'.din ip }
  type : (fs'.din ip).type = (fs.din ip).type
  size : (fs'.din ip).size.toNat = max (fs.din ip).size.toNat (off + n)
  blocks : fs.logged = [] → fs'.logged.toFinset.card = chunkCost fs ip off n

/-- An accepted write of a chunk logs as many distinct blocks as `chunkCost` says. -/
theorem writei_chunkDone (src : ℕ → UInt8) {off n : UInt32} (hheld : fs.Held ip) (hsize : fs.sb.size ≤ BPB)
    (hdev : (fs.din ip).type ≠ T_DEV) (hn : 0 < n.toNat) (hoff : off.toNat ≤ (fs.din ip).size.toNat)
    (hmax : off.toNat + n.toNat ≤ MAXFILE * BSIZE) :
    (∃ fs', writei fs ip src off n = .ok (n.toNat, fs') ∧ ChunkDone fs fs' ip off.toNat n.toNat ∧
      (missing fs ip (touchedSlots off.toNat n.toNat)).card ≤ (fs.view ip).free.card) ∨
    writei fs ip src off n = .error "balloc: out of blocks" ∧
      (fs.view ip).free.card < (missing fs ip (touchedSlots off.toNat n.toNat)).card := by
  have hmax' : off.toNat + n.toNat ≤ 71680 := hmax
  rcases writei_cases src hheld hdev hoff hmax with ⟨fs₁, hw, hwrite⟩ | hfull
  · obtain ⟨tail, htail, hmem⟩ := hw.logged
    have hdin := hw.grows.din
    have hfree := hw.grows.free
    refine .inl ⟨_, hwrite, ?_, by omega⟩
    by_cases hgrow : (fs.din ip).size.toNat < off.toNat + n.toNat
    · rw [if_pos hgrow]
      have hdin' : (iupdate (fs₁.setDin ip { fs₁.din ip with
          size := UInt32.ofNat (off.toNat + n.toNat) }) ip).din ip =
          { fs₁.din ip with size := UInt32.ofNat (off.toNat + n.toNat) } := Fs.setDin_din _ _ _
      refine ⟨hw.grows.held.iupdate _, hw.grows.sb, ?_, ?_, ?_, ?_⟩
      · rw [hdin']
        change Function.update fs₁.icache ip _ ip = _
        rw [Function.update_self, hw.grows.node]
      · rw [hdin', hdin]
      · rw [hdin', max_eq_right hgrow.le]
        exact UInt32.toNat_ofNat_of_lt' (hmax'.trans_lt (by decide))
      intro hnil
      apply card_tail hheld hw hsize hn hmax
      intro c
      change c ∈ fs₁.logged ++ [IBLOCK ((fs₁.setDin ip _).inum ip) fs₁.sb] ↔ _
      rw [Fs.setDin_inum, hw.grows.inum, hw.grows.sb, htail, hnil, List.nil_append, List.mem_append, hmem,
        List.mem_singleton, and_iff_right hgrow]
    · rw [if_neg hgrow]
      refine ⟨hw.grows.held, hw.grows.sb, hw.grows.node, by rw [hdin], ?_, ?_⟩
      · rw [hdin, max_eq_left (by omega)]
      intro hnil
      apply card_tail hheld hw hsize hn hmax
      intro c
      rw [htail, hnil, List.nil_append, hmem]
      simp [hgrow]
  · exact .inr hfull

/-- Set or clear the flag `I_BUSY` of a cache entry. -/
def Fs.setBusy (fs : Fs) (ip : Fin NINODE) (busy : Bool) : Fs :=
  fs.setInode ip { fs.icache ip with busy := busy }

section Busy

variable {fs : Fs} {ip : Fin NINODE} {busy : Bool}

@[simp] theorem Fs.setBusy_icache : (fs.setBusy ip busy).icache ip = { fs.icache ip with busy := busy } :=
  Function.update_self _ _ _

@[simp] theorem Fs.setBusy_din : (fs.setBusy ip busy).din ip = fs.din ip := by
  rw [din, setBusy_icache]
  rfl

@[simp] theorem Fs.setBusy_inum : (fs.setBusy ip busy).inum ip = fs.inum ip := by
  rw [inum, setBusy_icache]
  rfl

/-- Locking and unlocking do not change the view. -/
theorem Fs.Held.setBusy (h : fs.Held ip) : (fs.setBusy ip busy).Held ip :=
  h.congr rfl rfl Fs.setBusy_inum Fs.setBusy_din

theorem chunkCost_setBusy {off n1 : ℕ} : chunkCost (fs.setBusy ip busy) ip off n1 = chunkCost fs ip off n1 := by
  simp only [chunkCost, unmapped, Fs.setBusy_din]
  rfl

/-- `ilock` of an inode in memory sets its flag. -/
theorem ilock_valid (fs : Fs) (href : 1 ≤ (fs.icache ip).ref) (hvalid : (fs.icache ip).valid = true) :
    ilock fs ip = .ok (fs.setBusy ip true) := by
  simp [ilock, hvalid, Int.not_lt.mpr href, Fs.setBusy]

/-- `iunlock` of a locked inode clears its flag. -/
theorem iunlock_busy (fs : Fs) (href : 1 ≤ (fs.icache ip).ref) (hbusy : (fs.icache ip).busy = true) :
    iunlock fs ip = .ok (fs.setBusy ip false) := by
  simp [iunlock, hbusy, Int.not_lt.mpr href, Fs.setBusy]

end Busy

/-- Unlocking after a transaction leaves a regular file at its new offset. -/
theorem RegularFile.next {fs₂ : Fs} (h : RegularFile fs f) (hip : f'.ip = f.ip) (htype : f'.type = f.type)
    (hwritable : f'.writable = f.writable) (hheld : fs₂.Held f.ip) (hsb : fs₂.sb = fs.sb)
    (hnode : fs₂.icache f.ip = { fs.icache f.ip with busy := true, din := fs₂.din f.ip })
    (hdin : (fs₂.din f.ip).type = (fs.din f.ip).type) (hoff : f'.off.toNat ≤ (fs₂.din f.ip).size.toNat) :
    RegularFile (fs₂.setBusy f.ip false) f' := by
  refine
    { inode := htype.trans h.inode, writable := hwritable.trans h.writable, ref := ?_, idle := ?_, valid := ?_,
      type := ?_, held := ?_, off := ?_, bitmap := hsb ▸ h.bitmap } <;> rw [hip]
  · rw [Fs.setBusy_icache, hnode]
    exact h.ref
  · rw [Fs.setBusy_icache]
  · rw [Fs.setBusy_icache, hnode]
    exact h.valid
  · rw [Fs.setBusy_din, hdin, h.type]
  · exact hheld.setBusy
  · rw [Fs.setBusy_din]
    exact hoff

/-- A transaction of `filewrite` on a regular file is rejected, or writes its whole chunk and logs as many distinct
blocks as the chunk costs, or finds too few blocks free. -/
theorem writeChunk_spec (addr : ℕ → UInt8) {n1 : ℕ} (h : RegularFile fs f) (hpos : 0 < n1) (hlt : n1 < 2 ^ 32) :
    (∃ r f' fs', writeChunk (beginOp fs) f addr n1 = .ok (r, f', fs') ∧ RegularFile fs' f' ∧
      fs'.logged.toFinset.card = chunkCost fs f.ip f.off.toNat n1 ∧
      (r = -1 ∧ MAXFILE * BSIZE < f.off.toNat + n1 ∨ r = n1 ∧ f.off.toNat + n1 ≤ MAXFILE * BSIZE ∧
        (missing fs f.ip (touchedSlots f.off.toNat n1)).card ≤ (fs.view f.ip).free.card)) ∨
    writeChunk (beginOp fs) f addr n1 = .error "balloc: out of blocks" ∧
      (fs.view f.ip).free.card < (missing fs f.ip (touchedSlots f.off.toNat n1)).card := by
  have hn : (UInt32.ofNat n1).toNat = n1 := UInt32.toNat_ofNat_of_lt' hlt
  have hview : ((beginOp fs).setBusy f.ip true).view f.ip = fs.view f.ip :=
    Fs.view_congr rfl rfl Fs.setBusy_inum Fs.setBusy_din
  have hstart : (beginOp fs).Held f.ip := h.held.congr rfl rfl rfl rfl
  have hheld : ((beginOp fs).setBusy f.ip true).Held f.ip := hstart.setBusy
  have hdin : ((beginOp fs).setBusy f.ip true).din f.ip = fs.din f.ip := Fs.setBusy_din
  have hdev : (((beginOp fs).setBusy f.ip true).din f.ip).type ≠ T_DEV := by
    rw [hdin, h.type]
    decide
  rw [writeChunk, ilock_valid (beginOp fs) h.ref h.valid, ok_bind]
  by_cases hmax : f.off.toNat + n1 ≤ MAXFILE * BSIZE
  · have hmax' : f.off.toNat + n1 ≤ 71680 := hmax
    have hoff : f.off.toNat ≤ (((beginOp fs).setBusy f.ip true).din f.ip).size.toNat := by
      rw [hdin]
      exact h.off
    have hspec := writei_chunkDone addr (n := UInt32.ofNat n1) hheld h.bitmap hdev (by rw [hn]; exact hpos) hoff
      (by rw [hn]; exact hmax)
    rw [hn] at hspec
    have hmissing : missing ((beginOp fs).setBusy f.ip true) f.ip = missing fs f.ip := by
      unfold missing
      rw [hview, Fs.setBusy_inum]
      rfl
    rw [hview, hmissing] at hspec
    rcases hspec with ⟨fs₂, hwrite, hdone, hfree⟩ | ⟨hwrite, hfull⟩
    · have hnode := hdone.node
      rw [Fs.setBusy_icache] at hnode
      have href : 1 ≤ (fs₂.icache f.ip).ref := by
        rw [hnode]
        exact h.ref
      rw [hwrite, ok_bind]
      dsimp only
      rw [if_pos (by omega), iunlock_busy fs₂ href (by rw [hnode]), ok_bind]
      refine .inl ⟨_, _, _, rfl, ?_, (hdone.blocks rfl).trans chunkCost_setBusy, .inr ⟨rfl, hmax, hfree⟩⟩
      refine h.next rfl rfl rfl hdone.held hdone.sb hnode (by rw [hdone.type, hdin]) ?_
      rw [hdone.size, hdin, toNat_add_of_lt (by rw [Int.toNat_natCast, hn]; omega), Int.toNat_natCast, hn]
      exact le_max_right _ _
    · rw [hwrite, error_bind]
      exact .inr ⟨rfl, hfull⟩
  · rw [writei_reject addr hdev (.inr (.inr (by rw [hn]; omega))), ok_bind]
    dsimp only
    rw [if_neg (by decide), iunlock_busy _ (by rw [Fs.setBusy_icache]; exact h.ref) (by rw [Fs.setBusy_icache]),
      ok_bind]
    refine .inl ⟨_, _, _, rfl, ?_, by rw [chunkCost, if_neg hmax]; rfl, .inl ⟨rfl, not_le.mp hmax⟩⟩
    refine h.next rfl rfl rfl hheld rfl ?_ (by rw [hdin]) (by rw [hdin]; exact h.off)
    rw [Fs.setBusy_icache, hdin]
    rfl

/-- The transactions of a write are its first one, and those of the rest if that one wrote its whole chunk. -/
theorem filewriteLoop_first (fs : Fs) (f : File) (addr : ℕ → UInt8) {left : ℕ} (hleft : left ≠ 0) :
    (filewriteLoop fs f addr left).1 = match writeChunk (beginOp fs) f addr (min left filewriteMax) with
      | .error _ => []
      | .ok (r, f', fs') => ⟨beginOp fs, f, min left filewriteMax, fs'.logged⟩ ::
        if r = (min left filewriteMax : ℕ) then
          (filewriteLoop fs' f' (fun j => addr (j + min left filewriteMax)) (left - min left filewriteMax)).1
        else [] := by
  rw [filewriteLoop, if_neg hleft]
  dsimp only
  split
  · rfl
  split
  · rw [if_neg (by omega)]
  split
  · rfl
  · next hwhole => rw [if_pos (not_not.mp hwhole)]

/-- A full chunk that `writei` accepts touches thirteen blocks. -/
theorem lt_chunkCost_filewriteMax {off : ℕ} (hmax : off + filewriteMax ≤ MAXFILE * BSIZE) :
    MAXOPBLOCKS < chunkCost fs ip off filewriteMax := by
  rw [chunkCost, if_pos hmax, Nat.add_assoc, Nat.add_assoc]
  refine Nat.lt_add_right _ ?_
  simp only [MAXOPBLOCKS, BSIZE, filewriteMax, LOGSIZE]
  omega

/-- The file `sys_open` returns for the inode in the first cache entry. -/
def openedFile : File := ⟨.FD_INODE, true, true, 0, 0⟩

/-- A regular file allocated by `mkfs` can be opened for writing. -/
theorem regularFile_opened {sb : Superblock} {types : List Int16} (hlayout : Layout sb) (hsize : sb.size ≤ BPB)
    (hfit : 1 + types.length ≤ sb.ninodes) {k : ℕ} (htype : types[k]? = some T_FILE) :
    RegularFile (Mkfs.opened sb types (k + 1)) openedFile where
  inode := rfl
  writable := rfl
  ref := le_refl (1 : ℤ)
  idle := rfl
  valid := rfl
  type := by
    change ((Mkfs.opened sb types (k + 1)).din 0).type = T_FILE
    rw [Mkfs.opened_din hlayout hfit htype]
    rfl
  held := (Mkfs.ready_opened hlayout hsize hfit htype (by decide)).held
  off := Nat.zero_le _
  bitmap := hsize

end Xv6
