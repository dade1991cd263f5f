import Xv6.Fs.Contents
import Xv6.Mkfs.Program

/-!
# `iappend` is `writei` at the end of a file

`mkfs` has no free map while it runs: the blocks in use are those below its counter. With the map it
will write at the end put in place, its image is one the kernel can work on, and there `iappend` does
what `writei` at the end of the file does: its block map is the one of `bmap`, and the next free block
is the one `balloc` finds. The facts proved about `writei` then hold of `iappend`.
-/

namespace Xv6.Mkfs

open Lib Lib.Buffer
open Function (update_of_ne update_self)

/-- The layout of `mkfs` with an inode for each place in the inode blocks. -/
def capacity : Superblock :=
  { mkfsSuperblock with ninodes := IPB * (mkfsSuperblock.bmapstart - mkfsSuperblock.inodestart) }

theorem layout_capacity : Layout capacity where
  inodes_ge := by decide
  bmap_ge := by decide
  data_ge := by decide
  inodes_lt := by
    intro i hi
    simp only [IBLOCK, capacity, mkfsSuperblock, IPB, BSIZE, DINODESIZE, LOGSIZE, MAXOPBLOCKS] at hi ⊢
    omega
  bmap_lt := layout_mkfsSuperblock.bmap_lt
  size_lt := by decide

theorem sector_eq {sec : ℕ} (h : sec ≤ FSSIZE) : sector sec = sec := by
  have hlt : sec * BSIZE < 2 ^ 32 := by
    simp only [FSSIZE, BSIZE] at h ⊢
    omega
  rw [sector, Nat.mod_eq_of_lt hlt, Nat.mul_div_cancel _ (by decide)]

namespace Img

variable {img : Img}

/-- The sectors with the free map as the counter has it. -/
def marked (img : Img) : ℕ → Block :=
  Function.update img.disk capacity.bmapstart (Mkfs.balloc img.freeblock)

theorem marked_of_ne {c : ℕ} (hc : c ≠ capacity.bmapstart) : img.marked c = img.disk c :=
  update_of_ne hc _ _

theorem marked_self : img.marked capacity.bmapstart = Mkfs.balloc img.freeblock := update_self _ _ _

/-- What holds of the file and the block counter while `mkfs` runs. -/
structure Sound (img : Img) : Prop where
  length : img.length = FSSIZE
  next_ge : nmeta ≤ img.freeblock
  next_le : img.freeblock ≤ FSSIZE
  fresh : ∀ c, img.freeblock ≤ c → img.disk c = fun _ => 0

variable {sec : ℕ}

section

variable (hlen : img.length = FSSIZE)

include hlen

theorem rsect_eq (h : sec < FSSIZE) : img.rsect sec = .ok (img.disk sec) := by
  rw [rsect, sector_eq h.le, hlen, if_pos h]

/-- There is no sector behind the last one. -/
theorem rsect_end : img.rsect FSSIZE = .error .perror := by
  rw [rsect, sector_eq le_rfl, hlen, if_neg (lt_irrefl _)]

theorem wsect_eq (h : sec < FSSIZE) (buf : Block) :
    img.wsect sec buf = { img with disk := Function.update img.disk sec buf } := by
  rw [wsect, sector_eq h.le, hlen, max_eq_left (by omega), ← hlen]

theorem length_wsect (h : sec < FSSIZE) (buf : Block) : (img.wsect sec buf).length = FSSIZE := by
  rw [wsect_eq hlen h]
  exact hlen

end

/-- A write below the counter, not to the free map, is a write to the marked sectors. -/
theorem marked_update (h : sec ≠ capacity.bmapstart) (buf : Block) :
    { img with disk := Function.update img.disk sec buf }.marked = Function.update img.marked sec buf :=
  Function.update_comm h _ _ _

theorem Sound.update (h : img.Sound) (hsec : sec < img.freeblock) (buf : Block) :
    { img with disk := Function.update img.disk sec buf }.Sound where
  length := h.length
  next_ge := h.next_ge
  next_le := h.next_le
  fresh c hc := by
    dsimp only at hc ⊢
    rw [update_of_ne (by omega), h.fresh c hc]

/-- The image with the next block handed out. -/
def advance (img : Img) : Img := { img with freeblock := img.freeblock + 1 }

theorem Sound.advance (h : img.Sound) (hlt : img.freeblock < FSSIZE) : img.advance.Sound where
  length := h.length
  next_ge := Nat.le_succ_of_le h.next_ge
  next_le := hlt
  fresh c hc := h.fresh c (Nat.le_of_succ_le hc)

/-- Handing out a block marks it; it is zero already. -/
theorem Sound.marked_advance (h : img.Sound) : img.advance.marked = Function.update
      (Function.update img.marked capacity.bmapstart (setBit (Mkfs.balloc img.freeblock) img.freeblock))
      img.freeblock fun _ => 0 := by
  have hne : img.freeblock ≠ capacity.bmapstart := by
    have := h.next_ge
    have : capacity.bmapstart < nmeta := by decide
    omega
  have hnext : Mkfs.balloc (img.freeblock + 1) = setBit (Mkfs.balloc img.freeblock) img.freeblock := by
    rw [Mkfs.balloc, List.range_succ, List.foldl_append]
    rfl
  funext c
  by_cases hc : c = img.freeblock
  · subst hc
    rw [update_self, marked_of_ne hne]
    exact h.fresh _ le_rfl
  rw [update_of_ne hc]
  by_cases hmap : c = capacity.bmapstart
  · rw [hmap, update_self, marked_self]
    exact hnext
  · rw [update_of_ne hmap, marked_of_ne hmap, marked_of_ne hmap]
    rfl

end Img

/-- What writing files does to the counters. -/
structure Counts (img img' : Img) : Prop where
  freeinode : img'.freeinode = img.freeinode
  freeblock : img.freeblock ≤ img'.freeblock

namespace Counts

variable {img img₁ img' : Img} {din din' : Dinode} {x : ℕ}

theorem refl (img : Img) : Counts img img := ⟨rfl, le_rfl⟩

theorem trans (h : Counts img img₁) (h' : Counts img₁ img') : Counts img img' :=
  ⟨h'.freeinode.trans h.freeinode, h.freeblock.trans h'.freeblock⟩

theorem wsect (img : Img) (sec : ℕ) (buf : Block) : Counts img (img.wsect sec buf) := ⟨rfl, le_rfl⟩

variable {inum n : ℕ} {p : ℕ → UInt8}

theorem winode (h : img.winode inum din = .ok img') : Counts img img' := by
  obtain ⟨buf, -, hend⟩ := bind_eq_ok.mp h
  cases hend
  exact wsect ..

theorem addrOrNext {k : ℕ} (h : img.addrOrNext din k = (x, din', img')) : Counts img img' := by
  unfold Img.addrOrNext at h
  split at h
  · rw [← (Prod.mk.inj (Prod.mk.inj h).2).2]
    exact ⟨rfl, Nat.le_succ _⟩
  · rw [← (Prod.mk.inj (Prod.mk.inj h).2).2]
    exact refl img

theorem blockOf {fbn : ℕ} (h : img.blockOf din fbn = .ok (x, din', img')) : Counts img img' := by
  unfold Img.blockOf at h
  split at h
  · exact addrOrNext (Except.ok.inj h)
  rcases hnext : img.addrOrNext din NDIRECT with ⟨ind, din₁, img₁⟩
  have hfirst := addrOrNext hnext
  rw [hnext] at h
  obtain ⟨indirect, -, hentry⟩ := bind_eq_ok.mp h
  split at hentry
  · rw [← (Prod.mk.inj (Prod.mk.inj (Except.ok.inj hentry)).2).2]
    exact ⟨hfirst.freeinode, Nat.le_succ_of_le hfirst.freeblock⟩
  · rw [← (Prod.mk.inj (Prod.mk.inj (Except.ok.inj hentry)).2).2]
    exact hfirst

/-- The loop of `iappend` takes no inode, and stops at the largest file. -/
theorem iappendLoop {off stop : ℕ} (h : img.iappendLoop din p off n = .ok (stop, din', img')) :
    Counts img img' ∧ (0 < n → off + n ≤ MAXFILE * BSIZE) := by
  induction n using Nat.strong_induction_on generalizing img din p off with
  | _ n ih =>
    unfold Img.iappendLoop at h
    split at h
    · next hn =>
      dsimp only at h
      split_ifs at h with hbn
      obtain ⟨⟨x, din₁, img₁⟩, hblock, hrest⟩ := bind_eq_ok.mp h
      obtain ⟨buf, -, hloop⟩ := bind_eq_ok.mp hrest
      simp only [BSIZE] at hbn hloop ⊢
      obtain ⟨hcounts, hmax⟩ := ih _ (by omega) hloop
      refine ⟨(blockOf hblock).trans ((wsect ..).trans hcounts), fun _ => ?_⟩
      simp only [BSIZE] at hmax
      omega
    · next hn =>
      rw [← (Prod.mk.inj (Prod.mk.inj (Except.ok.inj h)).2).2]
      exact ⟨refl img, fun hpos => absurd hpos hn⟩

theorem iappend (h : img.iappend inum p n = .ok img') : Counts img img' := by
  obtain ⟨din, -, hrest⟩ := bind_eq_ok.mp h
  obtain ⟨⟨off, din₁, img₁⟩, hloop, hwrite⟩ := bind_eq_ok.mp hrest
  exact (iappendLoop hloop).1.trans (winode hwrite)

end Counts

/-- The kernel has the marked image on its disk, and in cache entry `ip` the inode that `mkfs` has in
`din`. -/
structure Agrees (img : Img) (din : Dinode) (fs : Fs) (ip : Fin NINODE) : Prop where
  sound : img.Sound
  sb : fs.sb = capacity
  disk : fs.disk = img.marked
  din : fs.din ip = din

namespace Agrees

variable {img : Img} {din : Dinode} {fs : Fs} {ip : Fin NINODE}

section Blocks

variable (h : Agrees img din fs ip)

include h

/-- The bits of the free map are those of the blocks below the counter. -/
theorem inUse {b : ℕ} (hb : b < FSSIZE) : (fs.view ip).inUse b = decide (b < img.freeblock) := by
  have hlt : b < BPB := lt_trans hb (by decide)
  have hblock : BBLOCK b capacity = capacity.bmapstart := by
    rw [BBLOCK, Nat.div_eq_of_lt hlt, Nat.zero_add]
  rw [Image.inUse, Fs.view_sb, Fs.view_disk, h.sb, hblock, h.disk, Img.marked_self, Nat.mod_eq_of_lt hlt,
    bit_balloc _ _ hlt]

/-- The blocks in slots lie below the counter. -/
theorem own_lt (hheld : fs.Held ip) {s : ℕ × ℕ} (hs : (fs.view ip).own s ≠ 0) :
    nmeta ≤ (fs.view ip).own s ∧ (fs.view ip).own s < img.freeblock := by
  obtain ⟨hlo, hhi, hused⟩ := hheld.owned.own_area s hs
  rw [Fs.view_sb, h.sb] at hlo hhi
  rw [h.inUse hhi] at hused
  exact ⟨hlo, of_decide_eq_true hused⟩

/-- The free blocks are those from the counter on. -/
theorem card_free : (fs.view ip).free.card = FSSIZE - img.freeblock := by
  have hsize : (fs.view ip).sb.size = FSSIZE := by
    rw [Fs.view_sb, h.sb]
    rfl
  have hfree : (fs.view ip).free = Finset.Ico img.freeblock FSSIZE := by
    ext b
    rw [Image.free, hsize, Finset.mem_filter, Finset.mem_range, Finset.mem_Ico]
    constructor
    · rintro ⟨hlt, hclear⟩
      rw [h.inUse hlt] at hclear
      exact ⟨not_lt.mp (of_decide_eq_false hclear), hlt⟩
    · rintro ⟨hle, hlt⟩
      rw [h.inUse hlt]
      exact ⟨hlt, decide_eq_false (Nat.not_lt.mpr hle)⟩
  rw [hfree, Nat.card_Ico]

/-- The first free block is the next one of the counter. -/
theorem findFree : findFree fs = if img.freeblock < FSSIZE then some (0, img.freeblock) else none := by
  have hsize : fs.sb.size = FSSIZE := by
    rw [h.sb]
    rfl
  have hbit : ∀ b < FSSIZE, bit (fs.bread (BBLOCK 0 fs.sb)) b = decide (b < img.freeblock) := by
    intro b hb
    have hlt : b < BPB := lt_trans hb (by decide)
    rw [← h.inUse hb, Image.inUse, Fs.view_sb, Fs.view_disk, Nat.mod_eq_of_lt hlt, BBLOCK, BBLOCK,
      Nat.div_eq_of_lt hlt, Nat.zero_div]
    rfl
  have hone : List.range ((FSSIZE + BPB - 1) / BPB) = [0] := by decide
  unfold Xv6.findFree
  rw [hsize, hone, List.findSome?_cons, List.findSome?_nil, Nat.zero_mul]
  cases hfind : freeInBlock (fs.bread (BBLOCK 0 fs.sb)) 0 FSSIZE with
  | none =>
    rw [if_neg]
    · rfl
    · intro hlt
      have hused := freeInBlock_none hfind img.freeblock (lt_trans hlt (by decide)) (by omega)
      rw [hbit _ hlt] at hused
      exact lt_irrefl _ (of_decide_eq_true hused)
  | some b =>
    -- the bits below are set
    obtain ⟨-, hlt, hclear, -⟩ := freeInBlock_some hfind
    rw [Nat.zero_add] at hlt
    rw [hbit b hlt] at hclear
    have hle := not_lt.mp (of_decide_eq_false hclear)
    have heq : b = img.freeblock := by
      by_contra hne
      have hskip := (List.find?_range_eq_some.mp hfind).2.2 img.freeblock (by omega)
      rw [Nat.zero_add, hbit _ (by omega)] at hskip
      simp at hskip
      omega
    rw [if_pos (by omega), heq]
    rfl

/-- `balloc` hands out the next block of the counter. -/
theorem balloc (hlt : img.freeblock < FSSIZE) : Xv6.balloc fs = .ok (img.freeblock, fs.allocated img.freeblock) ∧
      Agrees img.advance din (fs.allocated img.freeblock) ip := by
  have hbpb : img.freeblock < BPB := lt_trans hlt (by decide)
  have hblock : BBLOCK img.freeblock fs.sb = BBLOCK 0 fs.sb := by
    rw [BBLOCK, BBLOCK, Nat.div_eq_of_lt hbpb, Nat.zero_div]
  have hmap : BBLOCK 0 fs.sb = capacity.bmapstart := by
    rw [h.sb]
    rfl
  constructor
  · rw [Xv6.balloc, h.findFree, if_pos hlt, Fs.allocated, hblock, Nat.mod_eq_of_lt hbpb]
    dsimp only
    rw [Nat.zero_add]
  · refine ⟨h.sound.advance hlt, h.sb, ?_, h.din⟩
    rw [h.sound.marked_advance]
    dsimp only [Fs.allocated, bzero, Fs.logWrite, Fs.bread]
    rw [hblock, hmap, Nat.mod_eq_of_lt hbpb, h.disk, Img.marked_self]

theorem balloc_full (hge : ¬img.freeblock < FSSIZE) : Xv6.balloc fs = .error "balloc: out of blocks" := by
  rw [Xv6.balloc, h.findFree, if_neg hge]

/-- An address of the inode is looked up or filled as the kernel does it. -/
theorem addrOrNext (k : ℕ) {x : ℕ} {din' : Dinode} {img' : Img} (hnext : img.addrOrNext din k = (x, din', img')) :
    (∃ fs', addrOrAlloc fs ip k = .ok (x, fs') ∧ Agrees img' din' fs' ip) ∨
      addrOrAlloc fs ip k = .error "balloc: out of blocks" ∧ x = FSSIZE ∧ img'.length = FSSIZE := by
  unfold Img.addrOrNext at hnext
  unfold addrOrAlloc
  rw [h.din]
  by_cases hempty : din.addr k = 0
  · rw [if_pos hempty] at hnext ⊢
    obtain ⟨rfl, hrest⟩ := Prod.mk.inj hnext
    cases hrest
    by_cases hlt : img.freeblock < FSSIZE
    · obtain ⟨hball, hagrees⟩ := h.balloc hlt
      rw [hball, ok_bind]
      refine .inl ⟨_, rfl, hagrees.sound, hagrees.sb, hagrees.disk, ?_⟩
      rw [Fs.setDin_din, hagrees.din]
    · rw [h.balloc_full hlt]
      exact .inr ⟨rfl, le_antisymm h.sound.next_le (not_lt.mp hlt), h.sound.length⟩
  · rw [if_neg hempty] at hnext ⊢
    obtain ⟨rfl, hrest⟩ := Prod.mk.inj hnext
    cases hrest
    exact .inl ⟨fs, rfl, h⟩

variable {sec : ℕ}

/-- Writing a block in use. -/
theorem logWrite (hlo : nmeta ≤ sec) (hhi : sec < img.freeblock) (buf : Block) :
    Agrees (img.wsect sec buf) din (fs.logWrite sec buf) ip := by
  have hne : sec ≠ capacity.bmapstart := by
    have : capacity.bmapstart < nmeta := by decide
    omega
  have hlt : sec < FSSIZE := hhi.trans_le h.sound.next_le
  rw [Img.wsect_eq h.sound.length hlt]
  refine ⟨h.sound.update hhi buf, h.sb, ?_, h.din⟩
  rw [Img.marked_update hne, ← h.disk]
  rfl

theorem bread (hlo : nmeta ≤ sec) : fs.bread sec = img.disk sec := by
  have : capacity.bmapstart < nmeta := by decide
  rw [Fs.bread, h.disk, Img.marked_of_ne (by omega)]

/-- The block map of `mkfs` is the one of the kernel. Where the kernel has no block left, the block of
`mkfs` lies behind the image. -/
theorem blockOf (hheld : fs.Held ip) {fbn : ℕ} (hbn : fbn < MAXFILE) :
    (∃ x din' img' fs', img.blockOf din fbn = .ok (x, din', img') ∧ bmap fs ip fbn = .ok (x, fs') ∧
      Agrees img' din' fs' ip) ∨ bmap fs ip fbn = .error "balloc: out of blocks" ∧
      (img.blockOf din fbn = .error .perror ∨
        ∃ din' img', img.blockOf din fbn = .ok (FSSIZE, din', img') ∧ img'.length = FSSIZE) := by
  unfold bmap Img.blockOf
  by_cases hdirect : fbn < NDIRECT
  · rw [if_pos hdirect, if_pos hdirect]
    rcases hnext : img.addrOrNext din fbn with ⟨x, din', img'⟩
    rcases h.addrOrNext fbn hnext with ⟨fs', haddr, hagrees⟩ | ⟨haddr, rfl, hlen⟩
    · exact .inl ⟨x, din', img', fs', rfl, haddr, hagrees⟩
    · exact .inr ⟨haddr, .inr ⟨din', img', rfl, hlen⟩⟩
  have hentry : fbn - NDIRECT < NINDIRECT := by
    have : fbn < NDIRECT + NINDIRECT := hbn
    omega
  rw [if_neg hdirect, if_neg hdirect, if_pos hentry]
  rcases hnext : img.addrOrNext din NDIRECT with ⟨ind, din', img'⟩
  dsimp only
  rcases h.addrOrNext NDIRECT hnext with ⟨fs', haddr, hagrees⟩ | ⟨haddr, rfl, hlen⟩
  · -- the indirect block is there
    have hout := addrOrAlloc_outcome hheld (le_refl NDIRECT)
    rw [haddr] at hout
    have hmapped := hout.mapped hheld
    have hind : (fs'.view ip).own (fs.inum ip, NDIRECT) ≠ 0 :=
      hmapped.grows.filled _ (Finset.mem_singleton_self _)
    obtain ⟨hlo, hhi⟩ := hagrees.own_lt hmapped.grows.held hind
    rw [hmapped.own] at hlo hhi
    have hlt : ind < FSSIZE := hhi.trans_le hagrees.sound.next_le
    rw [haddr, ok_bind, Img.rsect_eq hagrees.sound.length hlt, ok_bind]
    unfold entryOrAlloc
    rw [hagrees.bread hlo]
    by_cases hempty : getEntry (img'.disk ind) (fbn - NDIRECT) = 0
    · rw [if_pos hempty, if_pos hempty]
      by_cases hfree : img'.freeblock < FSSIZE
      · obtain ⟨hball, hagrees'⟩ := hagrees.balloc hfree
        have hsame : (fs'.allocated img'.freeblock).bread ind = img'.disk ind := hagrees'.bread hlo
        rw [hball, ok_bind]
        dsimp only
        rw [hsame]
        exact .inl ⟨_, _, _, _, rfl, rfl, hagrees'.logWrite hlo (Nat.lt_succ_of_lt hhi) _⟩
      · rw [hagrees.balloc_full hfree]
        have hend : img'.freeblock = FSSIZE := le_antisymm hagrees.sound.next_le (not_lt.mp hfree)
        rw [hend]
        refine .inr ⟨rfl, .inr ⟨_, _, rfl, ?_⟩⟩
        exact Img.length_wsect hagrees.sound.length hlt (putEntry (img'.disk ind) (fbn - NDIRECT) FSSIZE)
    · rw [if_neg hempty, if_neg hempty]
      exact .inl ⟨_, _, _, _, rfl, rfl, hagrees⟩
  · rw [haddr, Img.rsect_end hlen]
    exact .inr ⟨rfl, .inl rfl⟩

end Blocks

/-- The loop of `iappend` is the loop of `writei`. -/
theorem iappendLoop (h : Agrees img din fs ip) (hheld : fs.Held ip) (p : ℕ → UInt8) {off n : ℕ}
    (hmax : off + n ≤ MAXFILE * BSIZE) : (∃ din' img' fs', img.iappendLoop din p off n = .ok (off + n, din', img') ∧
      writeiLoop fs ip p off n = .ok fs' ∧ Agrees img' din' fs' ip) ∨ img.iappendLoop din p off n = .error .perror ∧
      writeiLoop fs ip p off n = .error "balloc: out of blocks" := by
  induction n using Nat.strong_induction_on generalizing img din fs p off with
  | _ n ih =>
    unfold Img.iappendLoop writeiLoop
    by_cases hn : 0 < n
    · have hbn : off / BSIZE < MAXFILE := Nat.div_lt_of_lt_mul (by rw [Nat.mul_comm]; omega)
      rw [if_pos hn, if_pos hn, if_neg (Nat.not_le.mpr hbn)]
      rcases h.blockOf hheld hbn with ⟨x, din₁, img₁, fs₁, hblock, hbmap, hagrees⟩ | ⟨hbmap, hblock⟩
      · obtain ⟨addr, fs₂, hbmap', hmap⟩ | ⟨hbmap', -⟩ := bmap_spec hheld hbn
        · rw [hbmap] at hbmap'
          cases hbmap'
          have hown : (fs₁.view ip).own (fs.inum ip, bnSlot (off / BSIZE)) ≠ 0 :=
            hmap.grows.filled _ (bnSlot_mem_bnSlots _)
          obtain ⟨hlo, hhi⟩ := hagrees.own_lt hmap.grows.held hown
          rw [hmap.own] at hlo hhi
          have hchunk : min n ((off / BSIZE + 1) * BSIZE - off) = chunk off n := by
            simp only [chunk, BSIZE]
            omega
          have hstart : off - off / BSIZE * BSIZE = off % BSIZE := by
            simp only [BSIZE]
            omega
          have hfirst := Written.of_mapped p hheld hn hmap
          have hstep := hagrees.logWrite hlo hhi (splice (img₁.disk x) (off % BSIZE) (chunk off n) p)
          rw [← hagrees.bread hlo] at hstep
          have hpos := chunk_pos off hn
          rw [hblock, hbmap, ok_bind, ok_bind]
          dsimp only
          rw [Img.rsect_eq hagrees.sound.length (hhi.trans_le hagrees.sound.next_le), ok_bind, hchunk, hstart,
            ← chunk, ← hagrees.bread hlo]
          have hrest := ih (n - chunk off n) (by omega) hstep hfirst.grows.held (fun i => p (i + chunk off n))
            (show off + chunk off n + (n - chunk off n) ≤ _ by omega)
          rw [show off + chunk off n + (n - chunk off n) = off + n by omega] at hrest
          exact hrest
        · rw [hbmap] at hbmap'
          cases hbmap'
      · refine .inr ⟨?_, by rw [hbmap, error_bind]⟩
        rcases hblock with hfail | ⟨din', img', hend, hlen⟩
        · rw [hfail, error_bind]
        · rw [hend, ok_bind]
          dsimp only
          rw [Img.rsect_end hlen, error_bind]
    · have hzero : n = 0 := by omega
      rw [if_neg hn, if_neg hn, hzero]
      exact .inl ⟨din, img, fs, rfl, rfl, h⟩

end Agrees

namespace Img

variable {img : Img} {inum : ℕ}

/-- The image as the kernel sees it with the free map in place. -/
def image (img : Img) : Image := (Fs.boot capacity img.marked).image

theorem image_sb (img : Img) : img.image.sb = capacity := rfl

/-- The kernel with inode `inum` locked in the first cache entry. -/
def opened (img : Img) (inum : ℕ) : Fs :=
  (Fs.boot capacity img.marked).setInode 0 ⟨inum, 1, true, true, img.image.inode inum⟩

theorem iblock_lt (h : inum < capacity.ninodes) : IBLOCK inum capacity < capacity.bmapstart :=
  layout_capacity.inodes_lt inum h

theorem rinode_eq (h : img.Sound) (hi : inum < capacity.ninodes) : img.rinode inum = .ok (img.image.inode inum) := by
  have hlt := iblock_lt hi
  have hsector : IBLOCK inum capacity < FSSIZE := lt_trans hlt (by decide)
  have hinode : img.image.inode inum = getDinode (img.marked (IBLOCK inum capacity)) (inum % IPB) := if_pos hi
  rw [rinode, show IBLOCK inum mkfsSuperblock = IBLOCK inum capacity from rfl, rsect_eq h.length hsector, ok_bind,
    hinode, marked_of_ne (ne_of_lt hlt)]

/-- Storing an inode is the same store on the marked sectors. -/
theorem winode_spec (h : img.Sound) (hi : inum < capacity.ninodes) (d : Dinode) :
    ∃ img', img.winode inum d = .ok img' ∧ img'.Sound ∧ img'.freeinode = img.freeinode ∧
      img'.freeblock = img.freeblock ∧
      img'.marked = Function.update img.marked (IBLOCK inum capacity)
        (putDinode (img.marked (IBLOCK inum capacity)) (inum % IPB) d) := by
  have hlt := iblock_lt hi
  have hsector : IBLOCK inum capacity < FSSIZE := lt_trans hlt (by decide)
  have hused : IBLOCK inum capacity < img.freeblock := by
    have : capacity.bmapstart < nmeta := by decide
    have := h.next_ge
    omega
  let buf := putDinode (img.disk (IBLOCK inum capacity)) (inum % IPB) d
  refine ⟨{ img with disk := Function.update img.disk (IBLOCK inum capacity) buf }, ?_, h.update hused _, rfl, rfl, ?_⟩
  · rw [winode, show IBLOCK inum mkfsSuperblock = IBLOCK inum capacity from rfl, rsect_eq h.length hsector, ok_bind,
      wsect_eq h.length hsector]
  · rw [marked_update (ne_of_lt hlt), marked_of_ne (ne_of_lt hlt)]

/-- The image is told by the sectors. -/
theorem image_eq {fs : Fs} (hsb : fs.sb = capacity) (hdisk : fs.disk = img.marked) : fs.image = img.image := by
  unfold image Fs.image Fs.table Fs.boot
  rw [hsb, hdisk]

theorem ready_opened (howned : img.image.Owned) (hlive : img.image.live inum) : (img.opened inum).Ready 0 where
  owned := howned
  live := hlive
  coherent := rfl

/-- No file gets larger than the largest one. -/
theorem iappend_max (h : img.Sound) (hi : inum < capacity.ninodes) {p : ℕ → UInt8} {n : ℕ} (hn : 0 < n)
    (hmax : MAXFILE * BSIZE < (img.image.inode inum).size.toNat + n) : ∃ e, img.iappend inum p n = .error e := by
  cases happend : img.iappend inum p n with
  | error e => exact ⟨e, rfl⟩
  | ok img' =>
    obtain ⟨din, hread, hrest⟩ := bind_eq_ok.mp happend
    rw [rinode_eq h hi] at hread
    obtain ⟨⟨off, din₁, img₁⟩, hloop, -⟩ := bind_eq_ok.mp hrest
    have hle := (Counts.iappendLoop hloop).2 hn
    rw [← Except.ok.inj hread] at hle
    omega

/-- `iappend` does what `writei` at the end of the file does, or there are too few blocks. -/
theorem iappend_writei (h : img.Sound) (howned : img.image.Owned) (hlive : img.image.live inum) (p : ℕ → UInt8)
    {n : ℕ} (hn : 0 < n) (hmax : (img.image.inode inum).size.toNat + n ≤ MAXFILE * BSIZE) :
    (∃ img' fs', img.iappend inum p n = .ok img' ∧ img'.Sound ∧ fs'.image = img'.image ∧
      Wrote (img.opened inum) fs' 0 p (img.image.inode inum).size.toNat n ∧
      img'.freeblock = img.freeblock +
        (missing (img.opened inum) 0 (touchedSlots (img.image.inode inum).size.toNat n)).card) ∨
    img.iappend inum p n = .error .perror ∧ FSSIZE < img.freeblock +
      (missing (img.opened inum) 0 (touchedSlots (img.image.inode inum).size.toNat n)).card := by
  have hready := ready_opened howned hlive
  have hagrees : Agrees img (img.image.inode inum) (img.opened inum) 0 := ⟨h, rfl, rfl, rfl⟩
  have hle := h.next_le
  have hfree := hagrees.card_free
  unfold iappend
  rw [rinode_eq h hlive.1, ok_bind]
  rcases writeiLoop_spec p hready.held hmax with ⟨fs₁, hwrite, hwritten⟩ | ⟨hwrite, hfull⟩
  · rcases hagrees.iappendLoop hready.held p hmax with ⟨din₁, img₁, fs₁', hloop, hwrite', hagrees₁⟩ | ⟨-, hwrite'⟩
    · rw [hwrite] at hwrite'
      cases hwrite'
      obtain ⟨img', hwinode, hsound, -, hblock, hmarked⟩ := @winode_spec _ inum hagrees₁.sound hlive.1
        { din₁ with size := UInt32.ofNat ((img.image.inode inum).size.toNat + n) }
      have hwrote := hwritten.wrote_iupdate hready
        (show (img.image.inode inum).size.toNat < (img.image.inode inum).size.toNat + n by omega)
      have hinum : fs₁.inum 0 = inum := hwritten.grows.inum
      refine .inl ⟨img', _, ?_, hsound, image_eq ?_ ?_, hwrote, ?_⟩
      · rw [hloop, ok_bind]
        exact hwinode
      · exact hagrees₁.sb
      · rw [hmarked, Fs.iupdate_eq, Fs.setDin_inum, Fs.setDin_din, hinum, hagrees₁.din, ← hagrees₁.disk, ← hagrees₁.sb]
        rfl
      have hfree₁ := hagrees₁.card_free
      have hle₁ := hagrees₁.sound.next_le
      have hsum := hwritten.grows.free
      omega
    · rw [hwrite] at hwrite'
      cases hwrite'
  · rcases hagrees.iappendLoop hready.held p hmax with ⟨-, -, fs₁', -, hwrite', -⟩ | ⟨hloop, -⟩
    · rw [hwrite] at hwrite'
      cases hwrite'
    · exact .inr ⟨by rw [hloop, error_bind], by omega⟩

end Img

end Xv6.Mkfs
