import Xv6.Fs.BlockMap

/-!
# The loops of `readi` and `writei`

The contents of a file are the bytes of its data blocks in order, zero where a block is
missing. The loop of `writei` replaces exactly the bytes it is given and fills exactly the
slots of the blocks it touches; the loop of `readi` over present blocks copies the bytes and
changes nothing.
-/

namespace Xv6

open Lib Lib.Buffer

/-- Byte `x` of the contents of inode `i`. -/
def Image.fileByte (v : Image) (i x : ℕ) : UInt8 := byte (v.cont (i, bnSlot (x / BSIZE))) (x % BSIZE)

/-- The blocks of a file that hold the bytes `off, ..., off + n - 1`. -/
def touchedBlocks (off n : ℕ) : Finset ℕ :=
  if n = 0 then ∅ else Finset.Ico (off / BSIZE) ((off + n - 1) / BSIZE + 1)

/-- The slots looked up for the bytes `off, ..., off + n - 1`. -/
def touchedSlots (off n : ℕ) : Finset ℕ := (touchedBlocks off n).biUnion bnSlots

/-- The number of bytes one iteration copies. -/
def chunk (off left : ℕ) : ℕ := min left (BSIZE - off % BSIZE)

theorem bnSlot_ne (bn : ℕ) : bnSlot bn ≠ NDIRECT := by
  unfold bnSlot
  split <;> omega

theorem bnSlot_inj {a b : ℕ} (h : bnSlot a = bnSlot b) : a = b := by
  unfold bnSlot at h
  split at h <;> split at h <;> omega

theorem bnSlot_mem_bnSlots (bn : ℕ) : bnSlot bn ∈ bnSlots bn := by
  unfold bnSlot bnSlots
  split <;> simp

variable {bn k left off addr : ℕ} {fs fs' fs'' : Fs} {ip : Fin NINODE}

/-- Of the slots looked up for a block, one is the block's own and the other is the indirect block. -/
theorem mem_bnSlots : k ∈ bnSlots bn ↔ k = bnSlot bn ∨ NDIRECT ≤ bn ∧ k = NDIRECT := by
  unfold bnSlot bnSlots
  split
  · next h => simp [Nat.not_le.mpr h]
  · next h => simp [not_lt.mp h, or_comm]

theorem chunk_le (off left : ℕ) : chunk off left ≤ left := min_le_left _ _

theorem chunk_pos (off : ℕ) (h : 0 < left) : 0 < chunk off left := by
  have := Nat.mod_lt off (show 0 < BSIZE by decide)
  unfold chunk
  omega

/-- The bytes of one iteration lie in one block. -/
theorem mod_add_chunk_le (off left : ℕ) : off % BSIZE + chunk off left ≤ BSIZE := by
  have := Nat.mod_lt off (show 0 < BSIZE by decide)
  unfold chunk
  omega

/-- One iteration touches the block of `off`. -/
theorem touchedBlocks_chunk (h : 0 < left) : touchedBlocks off (chunk off left) = {off / BSIZE} := by
  have hpos := chunk_pos off h
  have hfit := mod_add_chunk_le off left
  ext bn
  rw [touchedBlocks, if_neg (by omega), Finset.mem_Ico, Finset.mem_singleton]
  simp only [BSIZE] at hfit ⊢
  omega

/-- The blocks of two adjacent ranges of bytes. -/
theorem touchedBlocks_append (off m n : ℕ) :
    touchedBlocks off (m + n) = touchedBlocks off m ∪ touchedBlocks (off + m) n := by
  ext bn
  simp only [touchedBlocks, BSIZE]
  by_cases hm : m = 0
  · subst hm
    simp
  by_cases hn : n = 0
  · subst hn
    simp
  · rw [if_neg (by omega), if_neg hm, if_neg hn]
    simp only [Finset.mem_Ico, Finset.mem_union]
    omega

theorem touchedSlots_append (off m n : ℕ) :
    touchedSlots off (m + n) = touchedSlots off m ∪ touchedSlots (off + m) n := by
  rw [touchedSlots, touchedBlocks_append, Finset.union_biUnion, touchedSlots, touchedSlots]

theorem bnSlot_mem_biUnion {B : Finset ℕ} : bnSlot bn ∈ B.biUnion bnSlots ↔ bn ∈ B := by
  rw [Finset.mem_biUnion]
  constructor
  · rintro ⟨a, ha, hmem⟩
    rcases mem_bnSlots.mp hmem with heq | ⟨-, heq⟩
    · exact bnSlot_inj heq ▸ ha
    · exact absurd heq (bnSlot_ne bn)
  · intro hbn
    exact ⟨bn, hbn, bnSlot_mem_bnSlots bn⟩

section Fill

variable {fs : Fs} {ip : Fin NINODE} {k : ℕ} (data : Block)

/-- Logging new contents for a data block of the inode is a write to its slot. -/
theorem view_logWrite (h : fs.Held ip) (hown : (fs.view ip).own (fs.inum ip, k) ≠ 0) :
    (fs.logWrite ((fs.view ip).own (fs.inum ip, k)) data).view ip =
      (fs.view ip).fill (fs.inum ip, k) data := by
  have hlow : fs.sb.bmapstart ≤ fs.sb.datastart := h.owned.layout.data_ge
  have htable : (fs.logWrite ((fs.view ip).own (fs.inum ip, k)) data).table = fs.table := by
    refine Fs.table_congr h.owned.layout rfl fun c hc => ?_
    exact h.owned.disk_fill_low hown (hc.trans_le hlow)
  apply Image.ext
  · rfl
  · rfl
  · change Function.update _ _ _ = Function.update _ _ _
    rw [htable]
    rfl

/-- Writing a data block fills no slot. -/
theorem grows_logWrite (h : fs.Held ip) (hown : (fs.view ip).own (fs.inum ip, k) ≠ 0) (hk : k ≠ NDIRECT) :
    Grows fs (fs.logWrite ((fs.view ip).own (fs.inum ip, k)) data) ip ∅ := by
  have hview := view_logWrite data h hown
  have hsame : ∀ t, ((fs.view ip).fill (fs.inum ip, k) data).own t = (fs.view ip).own t := h.owned.own_fill hk
  refine
    { held := ⟨by rw [hview]; exact h.owned.fill hown hk, ?_⟩, sb := rfl, devsw := rfl,
      others := fun _ _ => rfl, node := rfl, din := rfl, low := ?_, keep := ?_, fresh := ?_,
      filled := fun j hj => absurd hj (Finset.notMem_empty j), free := ?_ }
  · rw [hview]
    exact h.live
  · intro c hc
    have hlow : fs.sb.bmapstart ≤ fs.sb.datastart := h.owned.layout.data_ge
    exact h.owned.disk_fill_low hown (hc.trans_le hlow)
  · intro s _
    rw [hview, hsame]
  · intro s hempty hheld
    rw [hview, hsame] at hheld
    exact absurd hempty hheld
  · rw [hview, h.owned.free_fill hown]
    rfl

end Fill

/-- The blocks logged by writing the blocks `B` of the inode in `ip`: the blocks themselves, the
free map blocks of those that were allocated, and the indirect block if an entry was filled. -/
def writeLogs (fs fs' : Fs) (ip : Fin NINODE) (B : Finset ℕ) (c : ℕ) : Prop :=
  (∃ bn ∈ B, c = (fs'.view ip).own (fs.inum ip, bnSlot bn)) ∨
    (∃ k ∈ missing fs ip (B.biUnion bnSlots), c = BBLOCK ((fs'.view ip).own (fs.inum ip, k)) fs.sb) ∨
    ∃ bn ∈ B, NDIRECT ≤ bn ∧ (fs.view ip).own (fs.inum ip, bnSlot bn) = 0 ∧
      c = (fs'.view ip).own (fs.inum ip, NDIRECT)

/-- The `left` bytes of `src` were written from byte `off` of the inode in `ip` on. -/
structure Written (fs fs' : Fs) (ip : Fin NINODE) (src : ℕ → UInt8) (off left : ℕ) : Prop where
  grows : Grows fs fs' ip (touchedSlots off left)
  bytes : ∀ x, (fs'.view ip).fileByte (fs.inum ip) x =
    if off ≤ x ∧ x < off + left then src (x - off) else (fs.view ip).fileByte (fs.inum ip) x
  others : ∀ s, s.1 ≠ fs.inum ip → (fs'.view ip).cont s = (fs.view ip).cont s
  logged : ∃ tail, fs'.logged = fs.logged ++ tail ∧ ∀ c, c ∈ tail ↔ writeLogs fs fs' ip (touchedBlocks off left) c

/-- Writing nothing. -/
theorem Written.zero (h : fs.Held ip) (src : ℕ → UInt8) (off : ℕ) : Written fs fs ip src off 0 where
  grows := by
    refine Grows.of_filled h fun k hk => ?_
    simp [touchedSlots, touchedBlocks] at hk
  bytes x := by rw [if_neg (by omega)]
  others _ _ := rfl
  logged := ⟨[], by simp, fun c => by simp [writeLogs, touchedBlocks, missing]⟩

/-- The blocks logged by two writes, one after the other. -/
theorem writeLogs_union {B C : Finset ℕ} (h : Grows fs fs' ip (B.biUnion bnSlots))
    (h' : Grows fs' fs'' ip (C.biUnion bnSlots)) (c : ℕ) :
    writeLogs fs fs'' ip (B ∪ C) c ↔ writeLogs fs fs' ip B c ∨ writeLogs fs' fs'' ip C c := by
  -- slots filled by the first write are not touched by the second
  have hkeep : ∀ k ∈ B.biUnion bnSlots, (fs''.view ip).own (fs.inum ip, k) = (fs'.view ip).own (fs.inum ip, k) :=
    fun k hk => h'.keep _ (h.filled k hk)
  have hslot : ∀ bn ∈ B, bnSlot bn ∈ B.biUnion bnSlots := fun bn hbn => bnSlot_mem_biUnion.mpr hbn
  have hind : ∀ bn ∈ B, NDIRECT ≤ bn → NDIRECT ∈ B.biUnion bnSlots := fun bn hbn hle =>
    Finset.mem_biUnion.mpr ⟨bn, hbn, mem_bnSlots.mpr (.inr ⟨hle, rfl⟩)⟩
  have hmissing : ∀ k ∈ missing fs ip (B.biUnion bnSlots), k ∈ B.biUnion bnSlots := fun k hk =>
    (Finset.mem_filter.mp hk).1
  simp only [writeLogs, Finset.union_biUnion, h.missing_union, Finset.mem_union, h.inum, h.sb]
  constructor
  · rintro (⟨bn, hB | hC, rfl⟩ | ⟨k, hk | hk, rfl⟩ | ⟨bn, hBC, hle, hempty, rfl⟩)
    · exact .inl (.inl ⟨bn, hB, hkeep _ (hslot bn hB)⟩)
    · exact .inr (.inl ⟨bn, hC, rfl⟩)
    · exact .inl (.inr (.inl ⟨k, hk, by rw [hkeep k (hmissing k hk)]⟩))
    · exact .inr (.inr (.inl ⟨k, hk, rfl⟩))
    by_cases hB : bn ∈ B
    · exact .inl (.inr (.inr ⟨bn, hB, hle, hempty, hkeep _ (hind bn hB hle)⟩))
    · refine .inr (.inr (.inr ⟨bn, hBC.resolve_left hB, hle, ?_, rfl⟩))
      by_contra hheld
      exact hB (bnSlot_mem_biUnion.mp (h.fresh _ hempty hheld).2)
  rintro ((⟨bn, hB, rfl⟩ | ⟨k, hk, rfl⟩ | ⟨bn, hB, hle, hempty, rfl⟩) |
    ⟨bn, hC, rfl⟩ | ⟨k, hk, rfl⟩ | ⟨bn, hC, hle, hempty, rfl⟩)
  · exact .inl ⟨bn, .inl hB, (hkeep _ (hslot bn hB)).symm⟩
  · exact .inr (.inl ⟨k, .inl hk, by rw [hkeep k (hmissing k hk)]⟩)
  · exact .inr (.inr ⟨bn, .inl hB, hle, hempty, (hkeep _ (hind bn hB hle)).symm⟩)
  · exact .inl ⟨bn, .inr hC, rfl⟩
  · exact .inr (.inl ⟨k, .inr hk, rfl⟩)
  · refine .inr (.inr ⟨bn, .inr hC, hle, ?_, rfl⟩)
    by_contra hheld
    exact hheld (by rw [← h.keep _ hheld, hempty])

/-- Two writes to adjacent ranges are one write. -/
theorem Written.append {src : ℕ → UInt8} {m n : ℕ} (h : Written fs fs' ip src off m)
    (h' : Written fs' fs'' ip (fun i => src (i + m)) (off + m) n) : Written fs fs'' ip src off (m + n) := by
  have hinum := h.grows.inum
  obtain ⟨tail, htail, hmem⟩ := h.logged
  obtain ⟨tail', htail', hmem'⟩ := h'.logged
  refine ⟨?_, ?_, ?_, tail ++ tail', by rw [htail', htail, List.append_assoc], ?_⟩
  · rw [touchedSlots_append]
    exact h.grows.trans h'.grows
  · intro x
    have hfirst := h.bytes x
    have hsecond := h'.bytes x
    rw [hinum] at hsecond
    rw [hsecond, hfirst]
    by_cases hlo : off ≤ x ∧ x < off + m
    · rw [if_neg (by omega), if_pos hlo, if_pos (by omega)]
    · rw [if_neg hlo]
      by_cases hhi : off + m ≤ x ∧ x < off + m + n
      · rw [if_pos hhi, if_pos (by omega), show x - (off + m) + m = x - off by omega]
      · rw [if_neg hhi, if_neg (by omega)]
  · intro s hs
    rw [h'.others s (by rwa [hinum]), h.others s hs]
  · intro c
    rw [List.mem_append, hmem, hmem', touchedBlocks_append, writeLogs_union h.grows h'.grows]

/-- The contents of a slot that holds a data block. -/
theorem Image.cont_eq {v : Image} {s : ℕ × ℕ} (hown : v.own s ≠ 0) (hdata : s.2 ≠ NDIRECT) :
    v.cont s = v.disk (v.own s) := if_neg (not_or.mpr ⟨hown, hdata⟩)

/-- The blocks logged by one iteration of the loop of `writei`. -/
theorem writeLogs_singleton (hheld : fs.Held ip)
    (hmap : Mapped fs fs' ip (bnSlots bn) (bnSlot bn) addr (bmapLogs fs fs' ip bn addr))
    (hown : ∀ s, (fs''.view ip).own s = (fs'.view ip).own s) (c : ℕ) :
    writeLogs fs fs'' ip {bn} c ↔ bmapLogs fs fs' ip bn addr c ∨ c = addr := by
  simp only [writeLogs, bmapLogs, missing, Finset.mem_singleton, Finset.singleton_biUnion, Finset.mem_filter,
    mem_bnSlots, hown, exists_eq_left, hmap.own]
  constructor
  · rintro (rfl | ⟨k, ⟨rfl | ⟨hle, rfl⟩, hempty⟩, rfl⟩ | ⟨hle, hempty, rfl⟩)
    · exact .inr rfl
    · exact .inl ⟨hempty, .inr (.inl (by rw [hmap.own]))⟩
    · have hslot : bnSlot bn = bn + 1 := if_neg (by omega)
      have hnone := fs.own_entry_eq_zero ip hheld.live hempty (show NDIRECT < bn + 1 by omega)
      exact .inl ⟨hslot ▸ hnone, .inr (.inr ⟨hle, .inr ⟨hempty, rfl⟩⟩)⟩
    · exact .inl ⟨hempty, .inr (.inr ⟨hle, .inl rfl⟩)⟩
  · rintro (⟨hempty, rfl | rfl | ⟨hle, rfl | ⟨hzero, rfl⟩⟩⟩ | rfl)
    · exact .inl rfl
    · exact .inr (.inl ⟨bnSlot bn, ⟨.inl rfl, hempty⟩, by rw [hmap.own]⟩)
    · exact .inr (.inr ⟨hle, hempty, rfl⟩)
    · exact .inr (.inl ⟨NDIRECT, ⟨.inr ⟨hle, rfl⟩, hzero⟩, rfl⟩)
    · exact .inl rfl

/-- One iteration of the loop of `writei`. -/
theorem Written.of_mapped (src : ℕ → UInt8) (hheld : fs.Held ip) (hleft : 0 < left)
    (hmap : Mapped fs fs' ip (bnSlots (off / BSIZE)) (bnSlot (off / BSIZE)) addr
      (bmapLogs fs fs' ip (off / BSIZE) addr)) :
    Written fs (fs'.logWrite addr (splice (fs'.bread addr) (off % BSIZE) (chunk off left) src)) ip src off
      (chunk off left) := by
  have hinum := hmap.grows.inum
  have hown : (fs'.view ip).own (fs'.inum ip, bnSlot (off / BSIZE)) = addr := hinum ▸ hmap.own
  have hpos : (fs'.view ip).own (fs'.inum ip, bnSlot (off / BSIZE)) ≠ 0 :=
    hinum ▸ hmap.grows.filled _ (bnSlot_mem_bnSlots _)
  have hdata := bnSlot_ne (off / BSIZE)
  have hheld' := hmap.grows.held
  subst hown
  obtain ⟨tail, htail, hmem⟩ := hmap.logged
  have hview := view_logWrite (splice (fs'.bread ((fs'.view ip).own (fs'.inum ip, bnSlot (off / BSIZE))))
    (off % BSIZE) (chunk off left) src) hheld' hpos
  refine ⟨?_, ?_, ?_, tail ++ [_], by rw [← List.append_assoc, ← htail]; rfl, ?_⟩
  · rw [touchedSlots, touchedBlocks_chunk hleft, Finset.singleton_biUnion,
      ← Finset.union_empty (bnSlots (off / BSIZE))]
    exact hmap.grows.trans (grows_logWrite _ hheld' hpos hdata)
  · intro x
    have hfit := mod_add_chunk_le off left
    have hxlt := Nat.mod_lt x (show 0 < BSIZE by decide)
    rw [hview, Image.fileByte, hheld'.owned.cont_fill hpos hdata, Image.fileByte, ← hmap.cont, hinum]
    by_cases hblock : x / BSIZE = off / BSIZE
    · rw [if_pos (by rw [hblock]), hblock, byte_splice _ _ _ _ _ hxlt,
        Image.cont_eq (by rwa [hinum] at hpos) hdata]
      simp only [BSIZE] at hblock hfit hxlt ⊢
      by_cases hrange : off ≤ x ∧ x < off + chunk off left
      · rw [if_pos (by omega), if_pos hrange, show x % 512 - off % 512 = x - off by omega]
      · rw [if_neg (by omega), if_neg hrange]
        rfl
    · have hne : ((fs.inum ip, bnSlot (x / BSIZE)) : ℕ × ℕ) ≠ (fs.inum ip, bnSlot (off / BSIZE)) := fun heq =>
        hblock (bnSlot_inj (Prod.mk.inj heq).2)
      simp only [BSIZE] at hblock hfit hne ⊢
      rw [if_neg hne, if_neg (by omega)]
  · intro s hs
    rw [hview, hheld'.owned.cont_fill hpos hdata, if_neg, hmap.cont]
    rintro rfl
    exact hs hinum
  · intro c
    rw [touchedBlocks_chunk hleft, writeLogs_singleton hheld hmap, List.mem_append, hmem, List.mem_singleton]
    intro s
    rw [hview, hheld'.owned.own_fill hdata]

/-- The loop of `writei` writes the bytes it is given, or panics because too few blocks are free. -/
theorem writeiLoop_spec (src : ℕ → UInt8) (h : fs.Held ip) (hmax : off + left ≤ MAXFILE * BSIZE) :
    (∃ fs', writeiLoop fs ip src off left = .ok fs' ∧ Written fs fs' ip src off left) ∨
    writeiLoop fs ip src off left = .error "balloc: out of blocks" ∧
      (fs.view ip).free.card < (missing fs ip (touchedSlots off left)).card := by
  induction left using Nat.strong_induction_on generalizing fs src off with
  | _ left ih =>
    unfold writeiLoop
    by_cases hleft : 0 < left
    · have hsplit : chunk off left + (left - chunk off left) = left := by
        have := chunk_le off left
        omega
      have hbn : off / BSIZE < MAXFILE := Nat.div_lt_of_lt_mul (by rw [Nat.mul_comm]; omega)
      rw [if_pos hleft]
      rcases bmap_spec h hbn with ⟨addr, fs₁, hbmap, hmap⟩ | ⟨hbmap, hfull⟩
      · have hfirst := Written.of_mapped src h hleft hmap
        have hrest := ih (left - chunk off left) (by have := chunk_pos off hleft; omega)
          (fun i => src (i + chunk off left)) hfirst.grows.held
          (show off + chunk off left + (left - chunk off left) ≤ _ by omega)
        rw [hbmap, ok_bind]
        rcases hrest with ⟨fs', hloop, hwritten⟩ | ⟨hloop, hfull⟩
        · exact .inl ⟨fs', hloop, hsplit ▸ hfirst.append hwritten⟩
        · refine .inr ⟨hloop, ?_⟩
          have hsum := hfirst.grows.free
          rw [← hsplit, touchedSlots_append, hfirst.grows.card_missing_union]
          omega
      · refine .inr ⟨by rw [hbmap]; rfl, hfull.trans_le (Finset.card_le_card ?_)⟩
        apply Finset.filter_subset_filter
        rw [← hsplit, touchedSlots_append, touchedSlots, touchedBlocks_chunk hleft, Finset.singleton_biUnion]
        exact Finset.subset_union_left
    · have hzero : left = 0 := by omega
      subst hzero
      exact .inl ⟨fs, rfl, Written.zero h src off⟩

theorem addrOrAlloc_present (h : (fs.din ip).addr k ≠ 0) :
    addrOrAlloc fs ip k = .ok ((fs.din ip).addr k, fs) := if_neg h

theorem entryOrAlloc_present {ind j : ℕ} (h : getEntry (fs.bread ind) j ≠ 0) :
    entryOrAlloc fs ind j = .ok (getEntry (fs.bread ind) j, fs) := if_neg h

/-- `bmap` of a block that is present looks it up and changes nothing. -/
theorem bmap_present (h : fs.Held ip) (hown : (fs.view ip).own (fs.inum ip, bnSlot bn) ≠ 0) :
    bmap fs ip bn = .ok ((fs.view ip).own (fs.inum ip, bnSlot bn), fs) := by
  rw [fs.own_view ip h.live] at hown ⊢
  unfold bmap
  by_cases hdirect : bn < NDIRECT
  · rw [show bnSlot bn = bn from if_pos hdirect, slotAddr_of_le _ _ hdirect.le] at hown ⊢
    rw [if_pos hdirect, addrOrAlloc_present hown]
  rw [show bnSlot bn = bn + 1 from if_neg hdirect] at hown ⊢
  have hplace : ¬((fs.din ip).addr NDIRECT = 0 ∨ NDIRECT + NINDIRECT < bn + 1) := fun hnone =>
    hown (slotAddr_none _ _ (by omega) hnone)
  obtain ⟨hind, hlt⟩ := not_or.mp hplace
  rw [slotAddr_entry _ _ hind (by omega) (by omega), Nat.add_sub_add_right] at hown ⊢
  rw [if_neg hdirect, if_pos (by omega), addrOrAlloc_present hind, ok_bind]
  exact entryOrAlloc_present hown

/-- Over present blocks the loop of `readi` copies the bytes of the file and changes nothing. -/
theorem readiLoop_ok (h : fs.Held ip)
    (hown : ∀ bn ∈ touchedBlocks off left, (fs.view ip).own (fs.inum ip, bnSlot bn) ≠ 0) : readiLoop fs ip off left =
      .ok ((List.range left).map fun i => (fs.view ip).fileByte (fs.inum ip) (off + i), fs) := by
  induction left using Nat.strong_induction_on generalizing off with
  | _ left ih =>
    unfold readiLoop
    by_cases hleft : 0 < left
    · have hsplit : chunk off left + (left - chunk off left) = left := by
        have := chunk_le off left
        omega
      rw [← hsplit, touchedBlocks_append, touchedBlocks_chunk hleft] at hown
      have hfirst := hown (off / BSIZE) (Finset.mem_union_left _ (Finset.mem_singleton_self _))
      have hrest := ih (left - chunk off left) (by have := chunk_pos off hleft; omega)
        fun bn hbn => hown bn (Finset.mem_union_right _ hbn)
      rw [if_pos hleft, bmap_present h hfirst, ok_bind]
      dsimp only
      rw [← chunk, hrest, ok_bind]
      congr 2
      rw [← hsplit, List.range_add, List.map_append, List.map_map, hsplit]
      congr 1
      · apply List.map_congr_left
        intro i hi
        have hfit := mod_add_chunk_le off left
        rw [List.mem_range] at hi
        rw [Image.fileByte]
        simp only [BSIZE] at hfit hfirst ⊢
        rw [show (off + i) / 512 = off / 512 by omega, show (off + i) % 512 = off % 512 + i by omega,
          Image.cont_eq hfirst (bnSlot_ne _)]
        rfl
      · apply List.map_congr_left
        intro i _
        rw [Function.comp_apply, Nat.add_assoc]
    · have hzero : left = 0 := by omega
      subst hzero
      rfl

end Xv6
