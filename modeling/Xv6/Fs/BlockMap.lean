import Xv6.Fs.Image

/-!
# The block map of a locked inode

While an inode is locked its in-memory copy may name blocks its on-disk copy does not name
yet. The view of the file system through a cache entry puts the in-memory copy in the inode
table; `bmap` keeps that view well formed. It fills the slots of the block asked for, each
with one block taken from the free map, and changes no other slot and no file contents.
-/

namespace Xv6

open Lib Lib.Buffer
open Function (update update_idem update_self update_of_ne)
open Finset (mem_range card_empty mem_singleton_self mem_singleton mem_filter mem_union insert_eq)

namespace Fs

/-- Inode `i` as its inode block holds it. -/
def table (fs : Fs) (i : ℕ) : Dinode :=
  if i < fs.sb.ninodes then getDinode (fs.disk (IBLOCK i fs.sb)) (i % IPB) else Dinode.zero

/-- The inode number of a cache entry. -/
def inum (fs : Fs) (ip : Fin NINODE) : ℕ := (fs.icache ip).inum

/-- The file system with the in-memory copy in cache entry `ip` put in the inode table. -/
def view (fs : Fs) (ip : Fin NINODE) : Image where
  sb := fs.sb
  disk := fs.disk
  inode := update fs.table (fs.inum ip) (fs.din ip)

/-- Cache entry `ip` holds an allocated inode and the view through it is well formed. -/
structure Held (fs : Fs) (ip : Fin NINODE) : Prop where
  owned : (fs.view ip).Owned
  live : (fs.view ip).live (fs.inum ip)

/-- The state after `balloc` hands out block `b`. -/
def allocated (fs : Fs) (b : ℕ) : Fs :=
  let bno := BBLOCK b fs.sb
  bzero (fs.logWrite bno (setBit (fs.bread bno) (b % BPB))) b

/-- The state after `balloc` hands out block `b` for slot `k` of the inode in `ip`. -/
def assigned (fs : Fs) (ip : Fin NINODE) (k b : ℕ) : Fs :=
  let fs := fs.allocated b
  if k ≤ NDIRECT then fs.setDin ip ((fs.din ip).setAddr k b)
  else
    let ind := (fs.din ip).addr NDIRECT
    fs.logWrite ind (putEntry (fs.bread ind) (k - (NDIRECT + 1)) b)

@[simp] theorem view_sb (fs : Fs) (ip : Fin NINODE) : (fs.view ip).sb = fs.sb := rfl

@[simp] theorem view_disk (fs : Fs) (ip : Fin NINODE) : (fs.view ip).disk = fs.disk := rfl

@[simp] theorem view_inode_self (fs : Fs) (ip : Fin NINODE) : (fs.view ip).inode (fs.inum ip) = fs.din ip :=
  update_self _ _ _

@[simp] theorem setDin_din (fs : Fs) (ip : Fin NINODE) (d : Dinode) : (fs.setDin ip d).din ip = d := by
  simp [setDin, setInode, din]

@[simp] theorem setDin_inum (fs : Fs) (ip jp : Fin NINODE) (d : Dinode) : (fs.setDin ip d).inum jp = fs.inum jp := by
  by_cases h : jp = ip
  · subst h
    simp [setDin, setInode, inum]
  · simp [setDin, setInode, inum, h]

/-- The inode table depends on the blocks before the free map alone. -/
theorem table_congr {fs fs' : Fs} (hlayout : Layout fs.sb) (hsb : fs'.sb = fs.sb)
    (hlow : ∀ c < fs.sb.bmapstart, fs'.disk c = fs.disk c) : fs'.table = fs.table := by
  funext i
  rw [table, table, hsb]
  split
  · next hi => rw [hlow _ (hlayout.inodes_lt i hi)]
  · rfl

/-- Slots of the inode in `ip`. -/
theorem own_view (fs : Fs) (ip : Fin NINODE) (hlive : (fs.view ip).live (fs.inum ip)) (k : ℕ) :
    (fs.view ip).own (fs.inum ip, k) = slotAddr fs.disk (fs.din ip) k := by
  rw [Image.own, if_pos hlive, view_inode_self, view_disk]

/-- Without an indirect block there are no entries. -/
theorem own_entry_eq_zero (fs : Fs) (ip : Fin NINODE) (hlive : (fs.view ip).live (fs.inum ip))
    (hind : (fs.view ip).own (fs.inum ip, NDIRECT) = 0) {k : ℕ} (hk : NDIRECT < k) :
    (fs.view ip).own (fs.inum ip, k) = 0 := by
  rw [fs.own_view ip hlive, slotAddr_of_le _ _ le_rfl] at hind
  rw [fs.own_view ip hlive, slotAddr_none _ _ hk (.inl hind)]

end Fs

variable {bp : Block} {b size k addr bn : ℕ} {fs fs' : Fs} {ip : Fin NINODE}

/-- `freeInBlock` finds the first clear bit. -/
theorem freeInBlock_some {bi : ℕ} (h : freeInBlock bp b size = some bi) :
    bi < BPB ∧ b + bi < size ∧ bit bp bi = false ∧ ∀ i < bi, bit bp i = true := by
  obtain ⟨hfound, hmem, hbefore⟩ := List.find?_range_eq_some.mp h
  simp only [Bool.and_eq_true, decide_eq_true_eq, Bool.not_eq_true'] at hfound
  refine ⟨List.mem_range.mp hmem, hfound.1, hfound.2, fun i hi => ?_⟩
  simpa [show b + i < size by omega] using hbefore i hi

theorem freeInBlock_none (h : freeInBlock bp b size = none) (bi : ℕ) (hbi : bi < BPB) (hlt : b + bi < size) :
    bit bp bi = true := by
  have hnot := List.find?_eq_none.mp h bi (List.mem_range.mpr hbi)
  simpa [hlt] using hnot

/-- The bit of block `b` is in the block of the free map that `balloc` looks at for it. -/
theorem bit_eq (fs : Fs) (b : ℕ) :
    bit (fs.bread (BBLOCK (b / BPB * BPB) fs.sb)) (b % BPB) = bit (fs.disk (BBLOCK b fs.sb)) (b % BPB) := by
  rw [Fs.bread, BBLOCK, Nat.mul_div_cancel _ (by decide), BBLOCK]

/-- `balloc` hands out the first free block, or panics when every block is in use. -/
theorem balloc_cases (fs : Fs) (ip : Fin NINODE) :
    (∃ b < fs.sb.size, (fs.view ip).inUse b = false ∧ (∀ c < b, (fs.view ip).inUse c = true) ∧
        balloc fs = .ok (b, fs.allocated b)) ∨
      (fs.view ip).free = ∅ ∧ balloc fs = .error "balloc: out of blocks" := by
  have hused :
      ∀ c < fs.sb.size, freeInBlock (fs.bread (BBLOCK (c / BPB * BPB) fs.sb)) (c / BPB * BPB) fs.sb.size = none →
      (fs.view ip).inUse c = true := by
    intro c hc hnone
    have hbit := freeInBlock_none hnone (c % BPB) (Nat.mod_lt c (by decide)) (by rwa [Nat.div_add_mod'])
    exact (bit_eq fs c).symm.trans hbit
  cases hfind : findFree fs with
  | some found =>
    obtain ⟨before, i, after, hrange, hi, hbefore⟩ := List.findSome?_eq_some_iff.mp hfind
    obtain ⟨bi, hfree, rfl⟩ := Option.map_eq_some_iff.mp hi
    obtain ⟨hbi, hlt, hbit, hfirst⟩ := freeInBlock_some hfree
    obtain ⟨b, rfl, rfl⟩ : ∃ b, b / BPB = i ∧ b % BPB = bi :=
      ⟨bi + BPB * i, (Nat.div_mod_unique (by decide)).mpr ⟨rfl, hbi⟩⟩
    rw [Nat.div_add_mod'] at hlt
    refine .inl ⟨b, hlt, (bit_eq fs b).symm.trans hbit, fun c hc => ?_, ?_⟩
    · by_cases hsame : c / BPB = b / BPB
      · have hbit := hfirst (c % BPB) (by
          rw [← Nat.div_add_mod' c BPB, ← Nat.div_add_mod' b BPB, hsame] at hc
          exact Nat.lt_of_add_lt_add_left hc)
        rw [← hsame] at hbit
        exact (bit_eq fs c).symm.trans hbit
      · refine hused c (hc.trans hlt) (Option.map_eq_none_iff.mp (hbefore _ ?_))
        -- the blocks of the free map are searched in order
        have hmem : c / BPB ∈ before ++ b / BPB :: after := by
          rw [← hrange, List.mem_range]
          simp only [BPB, BSIZE]
          omega
        have hsorted : (before ++ b / BPB :: after).Pairwise (· < ·) := hrange ▸ List.pairwise_lt_range
        rcases List.mem_append.mp hmem with hmem | hmem
        · exact hmem
        · have hlater := (List.pairwise_cons.mp (List.pairwise_append.mp hsorted).2.1).1
          rcases List.mem_cons.mp hmem with heq | hmem
          · exact absurd heq hsame
          · exact absurd (hlater _ hmem) (Nat.not_lt.mpr (Nat.div_le_div_right hc.le))
    · rw [balloc, hfind, Fs.allocated]
      simp only [Nat.div_add_mod', BBLOCK, Nat.mul_div_cancel _ (show 0 < BPB by decide)]
  | none =>
    refine .inr ⟨Finset.filter_eq_empty_iff.mpr fun c hc => ?_, by rw [balloc, hfind]⟩
    have hc : c < fs.sb.size := mem_range.mp hc
    rw [hused c hc (Option.map_eq_none_iff.mp (List.findSome?_eq_none_iff.mp hfind (c / BPB) ?_))]
    · decide
    · rw [List.mem_range]
      simp only [BPB, BSIZE]
      omega

namespace Fs

variable {fs fs' fs'' : Fs} {ip : Fin NINODE} {k b : ℕ}

@[simp] theorem assigned_sb : (fs.assigned ip k b).sb = fs.sb := by
  unfold assigned
  split <;> rfl

@[simp] theorem assigned_devsw : (fs.assigned ip k b).devsw = fs.devsw := by
  unfold assigned
  split <;> rfl

/-- Only the addresses in the in-memory copy change. -/
theorem assigned_din : (fs.assigned ip k b).din ip = if k ≤ NDIRECT then (fs.din ip).setAddr k b else fs.din ip := by
  unfold assigned
  split
  · rw [setDin_din]
    rfl
  · rfl

theorem assigned_icache_self :
    (fs.assigned ip k b).icache ip = { fs.icache ip with din := (fs.assigned ip k b).din ip } := by
  rw [assigned_din]
  unfold assigned
  split
  · exact update_self _ _ _
  · rfl

theorem assigned_icache_of_ne {jp : Fin NINODE} (h : jp ≠ ip) : (fs.assigned ip k b).icache jp = fs.icache jp := by
  unfold assigned
  split
  · exact update_of_ne h _ _
  · rfl

@[simp] theorem assigned_inum : (fs.assigned ip k b).inum ip = fs.inum ip := by
  rw [inum, assigned_icache_self]
  rfl

theorem assigned_logged : (fs.assigned ip k b).logged =
    fs.logged ++ [BBLOCK b fs.sb, b] ++ if k ≤ NDIRECT then [] else [(fs.din ip).addr NDIRECT] := by
  unfold assigned allocated bzero logWrite
  split
  · simp [setDin, setInode]
  · simp [din]

theorem assigned_disk : (fs.assigned ip k b).disk = ((fs.view ip).assign (fs.inum ip) k b).disk := by
  unfold assigned Image.assign
  split
  · rfl
  · dsimp only [Image.setEntry, Image.allocate_inode]
    rw [view_inode_self]
    rfl

/-- The view after handing out a block for a slot is the view with that slot assigned. -/
theorem view_assigned (h : fs.Held ip) (hcan : (fs.view ip).CanAssign (fs.inum ip) k b) :
    (fs.assigned ip k b).view ip = (fs.view ip).assign (fs.inum ip) k b := by
  have htable : (fs.assigned ip k b).table = fs.table := by
    refine table_congr h.owned.layout assigned_sb fun c hc => ?_
    rw [assigned_disk]
    exact h.owned.disk_assign_low hcan hc
  apply Image.ext
  · rw [view_sb, assigned_sb, Image.assign_sb, view_sb]
  · rw [view_disk, assigned_disk]
  dsimp only [view]
  rw [htable, assigned_inum, assigned_din]
  unfold Image.assign
  split
  · dsimp only [Image.setAddr, Image.allocate_inode]
    rw [update_self, update_idem]
  · rfl

end Fs

/-- What looking up slot `k` of the inode in `ip` does, if need be with an allocation. -/
inductive SlotOutcome (fs : Fs) (ip : Fin NINODE) (k : ℕ) : Except Panic (ℕ × Fs) → Prop
  | present (hown : (fs.view ip).own (fs.inum ip, k) ≠ 0) :
      SlotOutcome fs ip k (.ok ((fs.view ip).own (fs.inum ip, k), fs))
  | fresh {b : ℕ} (hcan : (fs.view ip).CanAssign (fs.inum ip) k b) :
      SlotOutcome fs ip k (.ok (b, fs.assigned ip k b))
  | full (hown : (fs.view ip).own (fs.inum ip, k) = 0) (hfree : (fs.view ip).free = ∅) :
      SlotOutcome fs ip k (.error "balloc: out of blocks")

/-- Addresses of the inode are looked up as slots. -/
theorem addrOrAlloc_outcome (h : fs.Held ip) (hk : k ≤ NDIRECT) : SlotOutcome fs ip k (addrOrAlloc fs ip k) := by
  have hown : (fs.view ip).own (fs.inum ip, k) = (fs.din ip).addr k := by
    rw [fs.own_view ip h.live, slotAddr_of_le _ _ hk]
  unfold addrOrAlloc
  split
  · next hempty =>
    rcases balloc_cases fs ip with ⟨b, hlt, hfree, -, hball⟩ | ⟨hfree, hball⟩
    · have hassigned : fs.assigned ip k b =
          (fs.allocated b).setDin ip (((fs.allocated b).din ip).setAddr k b) := by
        rw [Fs.assigned, if_pos hk]
      rw [hball]
      change SlotOutcome fs ip k (.ok (b, _))
      rw [← hassigned]
      exact .fresh ⟨h.live, .inl hk, hown.trans hempty, hlt, hfree⟩
    · rw [hball]
      exact .full (hown.trans hempty) hfree
  · next hheld =>
    rw [← hown] at hheld ⊢
    exact .present hheld

/-- Entries of the indirect block are looked up as slots. -/
theorem entryOrAlloc_outcome (h : fs.Held ip) (hk : NDIRECT < k) (hk' : k ≤ NDIRECT + NINDIRECT)
    (hind : (fs.view ip).own (fs.inum ip, NDIRECT) ≠ 0) : SlotOutcome fs ip k
      (entryOrAlloc fs ((fs.view ip).own (fs.inum ip, NDIRECT)) (k - (NDIRECT + 1))) := by
  rw [fs.own_view ip h.live, slotAddr_of_le _ _ le_rfl] at hind ⊢
  have hown : (fs.view ip).own (fs.inum ip, k) =
      getEntry (fs.bread ((fs.din ip).addr NDIRECT)) (k - (NDIRECT + 1)) := by
    rw [fs.own_view ip h.live, slotAddr_entry _ _ hind hk hk']
    rfl
  unfold entryOrAlloc
  split
  · next hempty =>
    rcases balloc_cases fs ip with ⟨b, hlt, hfree, -, hball⟩ | ⟨hfree, hball⟩
    · have hassigned : fs.assigned ip k b = (fs.allocated b).logWrite ((fs.din ip).addr NDIRECT)
          (putEntry ((fs.allocated b).bread ((fs.din ip).addr NDIRECT)) (k - (NDIRECT + 1)) b) := by
        rw [Fs.assigned, if_neg (by omega)]
        rfl
      rw [hball]
      change SlotOutcome fs ip k (.ok (b, _))
      rw [← hassigned]
      refine .fresh ⟨h.live, .inr ⟨?_, hk'⟩, hown.trans hempty, hlt, hfree⟩
      rwa [Fs.view_inode_self]
    · rw [hball]
      exact .full (hown.trans hempty) hfree
  · next hheld =>
    rw [← hown] at hheld ⊢
    exact .present hheld

/-- The slots in `K` of the inode in `ip` that hold no block. -/
def missing (fs : Fs) (ip : Fin NINODE) (K : Finset ℕ) : Finset ℕ :=
  K.filter fun k => (fs.view ip).own (fs.inum ip, k) = 0

/-- From `fs` to `fs'` the slots in `K` of the inode in `ip` were filled where they were empty,
each with one free block, and nothing else happened to the slots, to the inode table, to the
other cache entries and to the other fields of the inode. -/
structure Grows (fs fs' : Fs) (ip : Fin NINODE) (K : Finset ℕ) : Prop where
  held : fs'.Held ip
  sb : fs'.sb = fs.sb
  devsw : fs'.devsw = fs.devsw
  others : ∀ jp ≠ ip, fs'.icache jp = fs.icache jp
  node : fs'.icache ip = { fs.icache ip with din := fs'.din ip }
  din : fs'.din ip = { fs.din ip with addrs := (fs'.din ip).addrs }
  low : ∀ c < fs.sb.bmapstart, fs'.disk c = fs.disk c
  keep : ∀ s, (fs.view ip).own s ≠ 0 → (fs'.view ip).own s = (fs.view ip).own s
  fresh : ∀ s, (fs.view ip).own s = 0 → (fs'.view ip).own s ≠ 0 → s.1 = fs.inum ip ∧ s.2 ∈ K
  filled : ∀ k ∈ K, (fs'.view ip).own (fs.inum ip, k) ≠ 0
  free : (fs'.view ip).free.card + (missing fs ip K).card = (fs.view ip).free.card

namespace Grows

variable {fs fs' fs'' : Fs} {ip : Fin NINODE} {K L : Finset ℕ}

variable (h : Grows fs fs' ip K)

include h

theorem inum : fs'.inum ip = fs.inum ip := by
  rw [Fs.inum, h.node]
  rfl

omit h in
/-- Slots that are all filled need nothing. -/
theorem of_filled (h : fs.Held ip) (hK : ∀ k ∈ K, (fs.view ip).own (fs.inum ip, k) ≠ 0) : Grows fs fs ip K where
  held := h
  sb := rfl
  devsw := rfl
  others _ _ := rfl
  node := rfl
  din := rfl
  low _ _ := rfl
  keep _ _ := rfl
  fresh _ hempty hheld := absurd hempty hheld
  filled := hK
  free := by
    rw [missing, Finset.filter_eq_empty_iff.mpr hK, card_empty, Nat.add_zero]

omit h in
/-- Handing out a block for one slot fills that slot. -/
theorem of_assigned {k b : ℕ} (h : fs.Held ip) (hcan : (fs.view ip).CanAssign (fs.inum ip) k b) :
    Grows fs (fs.assigned ip k b) ip {k} := by
  have hview := Fs.view_assigned h hcan
  have hown := h.owned.own_assign hcan
  have hpos : b ≠ 0 := by
    have := h.owned.datastart_le_of_free hcan.free
    have := h.owned.datastart_pos hcan.lt
    omega
  refine
    { held := ⟨?_, ?_⟩, sb := Fs.assigned_sb, devsw := Fs.assigned_devsw,
      others := fun jp hjp => Fs.assigned_icache_of_ne hjp, node := Fs.assigned_icache_self,
      din := ?_, low := ?_, keep := ?_, fresh := ?_, filled := ?_, free := ?_ }
  · rw [hview]
    exact h.owned.assign hcan
  · obtain ⟨hlt, htype⟩ := h.live
    rw [Fs.view_inode_self] at htype
    refine ⟨by simpa using hlt, ?_⟩
    rw [Fs.view_inode_self, Fs.assigned_din]
    split <;> simpa using htype
  · rw [Fs.assigned_din]
    split <;> rfl
  · intro c hc
    rw [Fs.assigned_disk]
    exact h.owned.disk_assign_low hcan hc
  · intro s hs
    rw [hview, hown, if_neg]
    rintro rfl
    exact hs hcan.empty
  · intro s hempty hheld
    rw [hview, hown] at hheld
    split at hheld
    · next hs =>
      subst hs
      exact ⟨rfl, mem_singleton_self k⟩
    · exact absurd hempty hheld
  · intro j hj
    rw [mem_singleton.mp hj, hview, hown, if_pos rfl]
    exact hpos
  · have hmem : b ∈ (fs.view ip).free :=
      mem_filter.mpr ⟨mem_range.mpr hcan.lt, hcan.free⟩
    have hmissing : missing fs ip {k} = {k} :=
      Finset.filter_eq_self.mpr fun j hj => by rw [mem_singleton.mp hj, hcan.empty]
    rw [hview, h.owned.free_assign hcan, hmissing, Finset.card_singleton, Finset.card_erase_add_one hmem]

/-- The slots missing for a growth in two parts are those missing for the parts. -/
theorem missing_union : missing fs ip (K ∪ L) = missing fs ip K ∪ missing fs' ip L := by
  ext k
  simp only [missing, mem_union, mem_filter, h.inum]
  constructor
  · rintro ⟨hk | hk, hempty⟩
    · exact .inl ⟨hk, hempty⟩
    · by_cases hheld : (fs'.view ip).own (fs.inum ip, k) = 0
      · exact .inr ⟨hk, hheld⟩
      · exact .inl ⟨(h.fresh _ hempty hheld).2, hempty⟩
  rintro (⟨hk, hempty⟩ | ⟨hk, hempty⟩)
  · exact ⟨.inl hk, hempty⟩
  · refine ⟨.inr hk, ?_⟩
    by_contra hheld
    exact hheld (by rw [← h.keep _ hheld, hempty])

theorem card_missing_union : (missing fs ip (K ∪ L)).card = (missing fs ip K).card + (missing fs' ip L).card := by
  rw [h.missing_union, Finset.card_union_of_disjoint]
  rw [Finset.disjoint_left]
  intro k hk hk'
  simp only [missing, mem_filter, h.inum] at hk hk'
  exact h.filled k hk.1 hk'.2

theorem trans (h' : Grows fs' fs'' ip L) : Grows fs fs'' ip (K ∪ L) where
  held := h'.held
  sb := h'.sb.trans h.sb
  devsw := h'.devsw.trans h.devsw
  others jp hjp := (h'.others jp hjp).trans (h.others jp hjp)
  node := by rw [h'.node, h.node]
  din := by rw [h'.din, h.din]
  low c hc := (h'.low c (h.sb ▸ hc)).trans (h.low c hc)
  keep s hs := by rw [h'.keep s (by rwa [h.keep s hs]), h.keep s hs]
  fresh s hempty hheld := by
    by_cases hmid : (fs'.view ip).own s = 0
    · obtain ⟨hinum, hL⟩ := h'.fresh s hmid hheld
      exact ⟨h.inum ▸ hinum, Finset.mem_union_right K hL⟩
    · obtain ⟨hinum, hK⟩ := h.fresh s hempty hmid
      exact ⟨hinum, Finset.mem_union_left L hK⟩
  filled k hk := by
    rcases mem_union.mp hk with hK | hL
    · have hmid := h.filled k hK
      rwa [h'.keep _ hmid]
    · exact h.inum ▸ h'.filled k hL
  free := by
    have hfirst := h.free
    have hsecond := h'.free
    rw [h.card_missing_union]
    omega

end Grows

/-- Looking up slot `k` of the inode in `ip` returned `addr`: the slots in `K` were filled where
they were empty, no file contents changed, and the blocks logged are those in `logs`. -/
structure Mapped (fs fs' : Fs) (ip : Fin NINODE) (K : Finset ℕ) (k addr : ℕ) (logs : ℕ → Prop) : Prop where
  grows : Grows fs fs' ip K
  own : (fs'.view ip).own (fs.inum ip, k) = addr
  cont : ∀ s, (fs'.view ip).cont s = (fs.view ip).cont s
  logged : ∃ tail, fs'.logged = fs.logged ++ tail ∧ ∀ c, c ∈ tail ↔ logs c

/-- The blocks logged by looking up one slot. -/
def slotLogs (fs : Fs) (ip : Fin NINODE) (k addr c : ℕ) : Prop :=
  (fs.view ip).own (fs.inum ip, k) = 0 ∧
    (c = addr ∨ c = BBLOCK addr fs.sb ∨ NDIRECT < k ∧ c = (fs.view ip).own (fs.inum ip, NDIRECT))

theorem SlotOutcome.mapped (hheld : fs.Held ip) (h : SlotOutcome fs ip k (.ok (addr, fs'))) :
    Mapped fs fs' ip {k} k addr (slotLogs fs ip k addr) := by
  cases h with
  | present hown =>
    refine ⟨Grows.of_filled hheld ?_, rfl, fun _ => rfl, [], by simp, ?_⟩
    · intro j hj
      rwa [mem_singleton.mp hj]
    · simp [slotLogs, hown]
  | fresh hcan =>
    have hind : (fs.view ip).own (fs.inum ip, NDIRECT) = (fs.din ip).addr NDIRECT := by
      rw [fs.own_view ip hheld.live, slotAddr_of_le _ _ le_rfl]
    refine ⟨Grows.of_assigned hheld hcan, ?_, ?_, _, by rw [Fs.assigned_logged, List.append_assoc], ?_⟩
    · rw [Fs.view_assigned hheld hcan, hheld.owned.own_assign hcan, if_pos rfl]
    · intro s
      rw [Fs.view_assigned hheld hcan, hheld.owned.cont_assign hcan]
    intro c
    rw [slotLogs, hind]
    by_cases hk : k ≤ NDIRECT
    · simp [hcan.empty, hk, Nat.not_lt.mpr hk, or_comm]
    · simp [hcan.empty, hk, not_le.mp hk, or_comm, or_left_comm]

/-- The slots looked up for block `bn` of a file. -/
def bnSlots (bn : ℕ) : Finset ℕ := if bn < NDIRECT then {bn} else {NDIRECT, bn + 1}

/-- The blocks logged by `bmap`. -/
def bmapLogs (fs fs' : Fs) (ip : Fin NINODE) (bn addr c : ℕ) : Prop :=
  (fs.view ip).own (fs.inum ip, bnSlot bn) = 0 ∧
    (c = addr ∨ c = BBLOCK addr fs.sb ∨ NDIRECT ≤ bn ∧
      (c = (fs'.view ip).own (fs.inum ip, NDIRECT) ∨
        (fs.view ip).own (fs.inum ip, NDIRECT) = 0 ∧
          c = BBLOCK ((fs'.view ip).own (fs.inum ip, NDIRECT)) fs.sb))

/-- Looking up an indirect block and then one of its entries. -/
theorem Mapped.trans_entry {fs'' : Fs} {ind : ℕ} (hheld : fs.Held ip) (hbn : NDIRECT ≤ bn)
    (h : Mapped fs fs' ip {NDIRECT} NDIRECT ind (slotLogs fs ip NDIRECT ind))
    (h' : Mapped fs' fs'' ip {bn + 1} (bn + 1) addr (slotLogs fs' ip (bn + 1) addr)) :
    Mapped fs fs'' ip {NDIRECT, bn + 1} (bn + 1) addr (bmapLogs fs fs'' ip bn addr) := by
  obtain ⟨tail, htail, hmem⟩ := h.logged
  obtain ⟨tail', htail', hmem'⟩ := h'.logged
  have hinum := h.grows.inum
  have hind : ind ≠ 0 := by
    rw [← h.own]
    exact h.grows.filled _ (mem_singleton_self _)
  have hkeep : (fs''.view ip).own (fs.inum ip, NDIRECT) = ind := by
    rw [h'.grows.keep _ (by rwa [h.own]), h.own]
  -- the first lookup leaves the entry as it was
  have hentry : (fs'.view ip).own (fs.inum ip, bn + 1) = 0 ↔ (fs.view ip).own (fs.inum ip, bn + 1) = 0 := by
    constructor
    · intro hempty
      by_contra hne
      exact hne (by rw [← h.grows.keep _ hne, hempty])
    · intro hempty
      by_contra hne
      have := mem_singleton.mp (h.grows.fresh _ hempty hne).2
      omega
  have hnone : (fs.view ip).own (fs.inum ip, NDIRECT) = 0 → (fs.view ip).own (fs.inum ip, bn + 1) = 0 :=
    fun hzero => fs.own_entry_eq_zero ip hheld.live hzero (by omega)
  refine ⟨?_, ?_, ?_, tail ++ tail', by rw [htail', htail, List.append_assoc], ?_⟩
  · exact insert_eq NDIRECT {bn + 1} ▸ h.grows.trans h'.grows
  · exact hinum ▸ h'.own
  · intro s
    rw [h'.cont, h.cont]
  intro c
  have hslot : bnSlot bn = bn + 1 := if_neg (by omega)
  rw [List.mem_append, hmem, hmem', bmapLogs, slotLogs, slotLogs, hinum, hkeep, h.own, hentry, hslot,
    h.grows.sb]
  have hlt : NDIRECT < bn + 1 := by omega
  simp only [lt_irrefl, false_and, or_false, hlt, true_and, hbn]
  constructor
  · rintro (⟨hempty, rfl | rfl⟩ | ⟨hempty, hc⟩)
    · exact ⟨hnone hempty, .inr (.inr (.inl rfl))⟩
    · exact ⟨hnone hempty, .inr (.inr (.inr ⟨hempty, rfl⟩))⟩
    · exact ⟨hempty, hc.imp_right (Or.imp_right .inl)⟩
  rintro ⟨hempty, rfl | rfl | rfl | ⟨hzero, rfl⟩⟩
  · exact .inr ⟨hempty, .inl rfl⟩
  · exact .inr ⟨hempty, .inr (.inl rfl)⟩
  · exact .inr ⟨hempty, .inr (.inr rfl)⟩
  · exact .inl ⟨hzero, .inr rfl⟩

/-- An empty slot with no free block left cannot be filled. -/
theorem card_free_lt_missing (hown : (fs.view ip).own (fs.inum ip, k) = 0) (hfree : (fs.view ip).free = ∅) :
    (fs.view ip).free.card < (missing fs ip {k}).card := by
  rw [missing, Finset.filter_singleton, if_pos hown, hfree, card_empty, Finset.card_singleton]
  exact Nat.one_pos

/-- `bmap` fills the slots of the block asked for, or panics because too few blocks are free. -/
theorem bmap_spec (h : fs.Held ip) (hbn : bn < MAXFILE) : (∃ addr fs', bmap fs ip bn = .ok (addr, fs') ∧
      Mapped fs fs' ip (bnSlots bn) (bnSlot bn) addr (bmapLogs fs fs' ip bn addr)) ∨
    bmap fs ip bn = .error "balloc: out of blocks" ∧
      (fs.view ip).free.card < (missing fs ip (bnSlots bn)).card := by
  have hmax : bn < NDIRECT + NINDIRECT := hbn
  unfold bmap bnSlots
  by_cases hdirect : bn < NDIRECT
  · have hslot : bnSlot bn = bn := if_pos hdirect
    rw [if_pos hdirect, if_pos hdirect, hslot]
    have hout := addrOrAlloc_outcome h (show bn ≤ NDIRECT by omega)
    cases haddr : addrOrAlloc fs ip bn with
    | ok found =>
      obtain ⟨addr, fs'⟩ := found
      rw [haddr] at hout
      have hmapped := hout.mapped h
      refine .inl ⟨addr, fs', rfl, hmapped.grows, hmapped.own, hmapped.cont, ?_⟩
      obtain ⟨tail, htail, hmem⟩ := hmapped.logged
      refine ⟨tail, htail, fun c => ?_⟩
      rw [hmem, slotLogs, bmapLogs, hslot]
      simp [Nat.not_le.mpr hdirect, Nat.not_lt.mpr hdirect.le]
    | error e =>
      rw [haddr] at hout
      cases hout with
      | full hown hfree => exact .inr ⟨rfl, card_free_lt_missing hown hfree⟩
  have hslot : bnSlot bn = bn + 1 := if_neg hdirect
  rw [if_neg hdirect, if_neg hdirect, if_pos (by omega), hslot]
  have hout := addrOrAlloc_outcome h (le_refl NDIRECT)
  cases haddr : addrOrAlloc fs ip NDIRECT with
  | ok found =>
    obtain ⟨ind, fs'⟩ := found
    rw [haddr] at hout
    have hmapped := hout.mapped h
    have hheld := hmapped.grows.held
    have hind : (fs'.view ip).own (fs'.inum ip, NDIRECT) = ind := hmapped.grows.inum ▸ hmapped.own
    have hpos : (fs'.view ip).own (fs'.inum ip, NDIRECT) ≠ 0 :=
      hmapped.grows.inum ▸ hmapped.grows.filled _ (mem_singleton_self _)
    have hout' := entryOrAlloc_outcome hheld (show NDIRECT < bn + 1 by omega) (by omega) hpos
    rw [hind, Nat.add_sub_add_right] at hout'
    rw [ok_bind]
    dsimp only
    cases hentry : entryOrAlloc fs' ind (bn - NDIRECT) with
    | ok found' =>
      obtain ⟨addr, fs''⟩ := found'
      rw [hentry] at hout'
      exact .inl ⟨addr, fs'', rfl, hmapped.trans_entry h (by omega) (hout'.mapped hheld)⟩
    | error e =>
      rw [hentry] at hout'
      cases hout' with
      | full hown hfree =>
        refine .inr ⟨rfl, ?_⟩
        have hlt := card_free_lt_missing hown hfree
        have hsum := hmapped.grows.free
        rw [insert_eq, hmapped.grows.card_missing_union]
        omega
  | error e =>
    rw [haddr] at hout
    cases hout with
    | full hown hfree =>
      refine .inr ⟨rfl, (card_free_lt_missing hown hfree).trans_le ?_⟩
      apply Finset.card_le_card
      apply Finset.filter_subset_filter
      exact Finset.singleton_subset_iff.mpr (Finset.mem_insert_self _ _)

end Xv6
