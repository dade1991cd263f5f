import Xv6.User.Heap

/-!
# Every run of the allocator

Whatever a program allocates, frees and writes, the free list is circular, in increasing order and without adjacent
blocks; the free blocks and those in use share no byte and make up the memory that `sbrk` gave; and every call returns.
-/

namespace Xv6.Malloc

open Lib
open Function (update update_self update_of_ne)
open List (mem_cons_self mem_cons_of_mem mem_cons length_cons length_map mem_map mem_append mem_append_left
  mem_append_right map_cons forall_mem_nil)

section Fuel

variable {arena : Arena} {fuel fuel' nunits nbytes prevp p ap r : ℕ} {h h' : Heap}

theorem free_mono (hf : free fuel h ap = some h') (hle : fuel ≤ fuel') : free fuel' h ap = some h' := by
  unfold free at hf ⊢
  dsimp only at hf ⊢
  cases hwalk : walk h.ptr (between h (ap - HEADER)) fuel h.freep with
  | none =>
    rw [hwalk] at hf
    cases hf
  | some q =>
    rw [hwalk] at hf
    rw [walk_mono hwalk hle]
    exact hf

variable {res : ℕ × Heap}

theorem morecore_mono (hm : morecore arena fuel h nunits = some res) (hle : fuel ≤ fuel') :
    morecore arena fuel' h nunits = some res := by
  unfold morecore at hm ⊢
  dsimp only at hm ⊢
  split at hm
  · exact hm
  split at hm
  · cases hm
  · next hfree =>
    rw [free_mono hfree hle]
    exact hm

theorem mallocLoop_mono (hm : mallocLoop arena nunits fuel h prevp p = some res) (hle : fuel ≤ fuel') :
    mallocLoop arena nunits fuel' h prevp p = some res := by
  induction fuel generalizing fuel' h prevp p with
  | zero => cases hm
  | succ fuel ih =>
    obtain ⟨fuel', rfl⟩ := Nat.exists_eq_add_one.mpr (Nat.zero_lt_of_lt hle)
    have hle' := Nat.le_of_succ_le_succ hle
    unfold mallocLoop at hm ⊢
    split at hm
    · next hfit => rwa [if_pos hfit]
    next hfit =>
    rw [if_neg hfit]
    split at hm
    · next hround =>
      rw [if_pos hround]
      cases hmore : morecore arena fuel h nunits with
      | none =>
        rw [hmore] at hm
        cases hm
      | some more =>
        rw [hmore] at hm
        rw [morecore_mono hmore hle']
        obtain ⟨q, h₁⟩ := more
        cases q with
        | zero => exact hm
        | succ q => exact ih hm hle'
    · next hround =>
      rw [if_neg hround]
      exact ih hm hle'

theorem malloc_mono (hm : malloc arena fuel h nbytes = some res) (hle : fuel ≤ fuel') :
    malloc arena fuel' h nbytes = some res := mallocLoop_mono hm hle

end Fuel

section Search

variable {arena : Arena} {fuel nunits prevp q : ℕ} {h : Heap} {l : List ℕ}

/-- One round of the search: it takes a block that is large enough, or none is and it is back at the start. -/
theorem mallocLoop_round (hq : h.freep = q) (hthread : Threaded h.ptr (prevp :: l ++ [q])) (hnot : q ∉ l)
    (hfuel : l.length < fuel) : (∃ prev t, prev ∈ prevp :: l ∧ h.ptr prev = t ∧ t ∈ l ++ [q] ∧ nunits ≤ h.size t ∧
      mallocLoop arena nunits fuel h prevp (h.ptr prevp) = some (take h nunits prev t)) ∨
    ((∀ t ∈ l ++ [q], h.size t < nunits) ∧ ∃ last rest, fuel = rest + 1 + l.length ∧
      mallocLoop arena nunits fuel h prevp (h.ptr prevp) = mallocLoop arena nunits (rest + 1) h last q) := by
  induction l generalizing prevp fuel with
  | nil =>
    have hlink : h.ptr prevp = q := (List.isChain_cons_cons.mp hthread).1
    obtain ⟨rest, rfl⟩ := Nat.exists_eq_add_one.mpr hfuel
    by_cases hfit : nunits ≤ h.size q
    · refine .inl ⟨prevp, q, List.mem_singleton_self _, hlink, List.mem_singleton_self _, hfit, ?_⟩
      rw [hlink, mallocLoop, if_pos hfit]
    · refine .inr ⟨fun t ht => ?_, prevp, rest, rfl, by rw [hlink]⟩
      rw [List.mem_singleton.mp ht]
      exact not_le.mp hfit
  | cons a l ih =>
    obtain ⟨hlink, hrest⟩ := List.isChain_cons_cons.mp hthread
    obtain ⟨fuel, rfl⟩ := Nat.exists_eq_add_one.mpr (Nat.zero_lt_of_lt hfuel)
    by_cases hfit : nunits ≤ h.size a
    · refine .inl ⟨prevp, a, mem_cons_self, hlink, mem_cons_self, hfit, ?_⟩
      rw [hlink, mallocLoop, if_pos hfit]
    have hround : ¬a = h.freep := fun heq => hnot (hq ▸ heq ▸ mem_cons_self)
    have hturn :
        mallocLoop arena nunits (fuel + 1) h prevp (h.ptr prevp) = mallocLoop arena nunits fuel h a (h.ptr a) := by
      rw [hlink, mallocLoop, if_neg hfit, if_neg hround]
    rw [hturn]
    rcases ih hrest (fun hin => hnot (mem_cons_of_mem a hin)) (Nat.lt_of_succ_lt_succ hfuel) with hfound | hnone
    · obtain ⟨prev, t, hprev, hpt, ht, hsize, heq⟩ := hfound
      exact .inl ⟨prev, t, mem_cons_of_mem prevp hprev, hpt, mem_cons_of_mem a ht, hsize, heq⟩
    obtain ⟨hsmall, last, rest, rfl, heq⟩ := hnone
    refine .inr ⟨fun t ht => ?_, last, rest, rfl, heq⟩
    rcases mem_cons.mp ht with rfl | ht
    · exact not_le.mp hfit
    · exact hsmall t ht

/-- The search of `malloc` from `freep` on, in a list of free blocks. -/
theorem FreeList.search {blocks : List Block} (hl : FreeList arena.base h blocks) (hpos : 0 < nunits)
    (hfuel : blocks.length < fuel) :
    (∃ b h' blocks', mallocLoop arena nunits fuel h h.freep (h.ptr h.freep) = some (b.addr + HEADER, h') ∧
      b.size = nunits ∧ Taken arena.base h blocks b h' blocks') ∨
    ((∀ f ∈ blocks, f.size < nunits) ∧ h.size h.freep < nunits ∧ ∃ last rest, fuel = rest + 1 + blocks.length ∧
      mallocLoop arena nunits fuel h h.freep (h.ptr h.freep) = mallocLoop arena nunits (rest + 1) h last h.freep) := by
  obtain ⟨l, hcircle, hperm⟩ := hl.circular.rotate hl.freep
  have hlength : l.length = blocks.length := by
    have heq := hperm.length_eq
    rw [length_cons, length_cons, length_map] at heq
    exact Nat.succ.inj heq
  have hnot : h.freep ∉ l := (List.nodup_cons.mp (hperm.nodup_iff.mpr hl.nodup)).1
  have hmem : ∀ t, t ∈ l ++ [h.freep] ↔ t ∈ arena.base :: blocks.map Block.addr := fun t =>
    (List.perm_append_singleton h.freep l).mem_iff.trans hperm.mem_iff
  rcases mallocLoop_round rfl hcircle hnot (hlength ▸ hfuel) with hfound | hnone
  · obtain ⟨prev, t, hprev, hlink, ht, hsize, heq⟩ := hfound
    -- the static header has no memory
    obtain ⟨f, hf, rfl⟩ : ∃ f ∈ blocks, f.addr = t := by
      rcases mem_cons.mp ((hmem t).mp ht) with rfl | hin
      · exact absurd (hl.base_size ▸ hsize) (Nat.not_le_of_gt hpos)
      · exact mem_map.mp hin
    rw [hl.sizes f hf] at hsize
    obtain ⟨b, h', blocks', htake, hunits, htaken⟩ := take_spec hl hf (hperm.mem_iff.mp hprev) hlink hpos hsize
    exact .inl ⟨b, h', blocks', heq.trans (congrArg some htake), hunits, htaken⟩
  · obtain ⟨hsmall, last, rest, hrest, heq⟩ := hnone
    refine .inr ⟨fun f hf => ?_, hsmall _ (by simp), last, rest, hlength ▸ hrest, heq⟩
    rw [← hl.sizes f hf]
    exact hsmall f.addr ((hmem _).mpr (mem_cons_of_mem _ (List.mem_map_of_mem hf)))

end Search

section Invariant

variable {arena : Arena} {h h' : Heap} {live blocks blocks' : List Block} {b : Block} {s : State}

/-- The memory that `sbrk` gave, as the allocator and the program have it. -/
structure Accounts (arena : Arena) (h : Heap) (live blocks : List Block) : Prop where
  bytes : ∀ x, uses (blocks ++ live) x = uses h.granted x
  once : ∀ x, uses h.granted x ≤ 1
  aligned : ∀ b ∈ blocks ++ live, HEADER ∣ b.addr
  sizes : ∀ b ∈ live, h.size b.addr = b.size
  nonempty : ∀ b ∈ live, 0 < b.size
  above : ∀ b ∈ live, arena.base < b.addr

/-- The free list and the blocks in use. Before the first call there are none. -/
inductive Sound (arena : Arena) : State → Prop
  | unused {h : Heap} (hnull : h.freep = 0) (hgranted : h.granted = []) : Sound arena ⟨h, []⟩
  | used {h : Heap} {live blocks : List Block} (hlist : FreeList arena.base h blocks)
      (hacc : Accounts arena h live blocks) : Sound arena ⟨h, live⟩

theorem Accounts.unshared (hacc : Accounts arena h live blocks) (x : ℕ) : uses blocks x + uses live x ≤ 1 := by
  have hbytes := hacc.bytes x
  have honce := hacc.once x
  rw [uses_append] at hbytes
  omega

theorem Block.covers_addr (h : 0 < b.size) : b.Covers b.addr := by
  simp only [Block.Covers, Block.stop_eq]
  omega

/-- The header of a block in use is in no free block. -/
theorem Accounts.outside (hacc : Accounts arena h live blocks) (hb : b ∈ live) : uses blocks b.addr = 0 := by
  have hpos := uses_pos hb (Block.covers_addr (hacc.nonempty b hb))
  have hle := hacc.unshared b.addr
  omega

variable {x calls bytes p n k nunits fuel nbytes : ℕ} {c : Block}

theorem FreeList.not_header (hl : FreeList arena.base h blocks) (hx : uses blocks x = 0) :
    x ∉ blocks.map Block.addr := by
  intro hin
  obtain ⟨f, hf, rfl⟩ := mem_map.mp hin
  exact (uses_pos hf (Block.covers_addr (hl.nonempty f hf))).ne' hx

section

variable (hacc : Accounts arena h live blocks)

include hacc

variable (hl : FreeList arena.base h blocks)

include hl

theorem Accounts.pairwise : (blocks ++ live).Pairwise Block.Apart := by
  refine apart_of_uses_le (fun x => hacc.bytes x ▸ hacc.once x) fun d hd => ?_
  exact (mem_append.mp hd).elim (hl.nonempty d) (hacc.nonempty d)

/-- A block in use and a free block are apart. -/
theorem Accounts.apart (hb : b ∈ live) : ∀ c ∈ blocks, b.Apart c := by
  intro c hc
  exact ((List.pairwise_append.mp (hacc.pairwise hl)).2.2 c hc b hb).symm

/-- A block taken from the free list is in use. -/
theorem Accounts.taken (ht : Taken arena.base h blocks b h' blocks') (hpos : 0 < b.size) :
    Accounts arena h' (b :: live) blocks' := by
  obtain ⟨c, hc, k, haddr⟩ := ht.within
  refine ⟨fun x => ?_, fun x => ht.granted ▸ hacc.once x, fun d hd => ?_, ?_, ?_, ?_⟩
  · have hbytes := ht.bytes x
    rw [ht.granted, ← hacc.bytes x, uses_append, uses_append, uses_cons, ← hbytes, uses_cons]
    omega
  · rcases mem_append.mp hd with hd | hd
    · obtain ⟨f, hf, heq⟩ := mem_map.mp (ht.headers d hd)
      exact heq ▸ hacc.aligned f (mem_append_left live hf)
    · rcases mem_cons.mp hd with rfl | hd
      · rw [haddr]
        exact Nat.dvd_add (hacc.aligned c (mem_append_left live hc)) (Nat.dvd_mul_right ..)
      · exact hacc.aligned d (mem_append_right blocks hd)
  · refine List.forall_mem_cons.mpr ⟨ht.size, fun d hd => ?_⟩
    exact (ht.kept d.addr (hacc.outside hd)).trans (hacc.sizes d hd)
  · exact List.forall_mem_cons.mpr ⟨hpos, hacc.nonempty⟩
  · refine List.forall_mem_cons.mpr ⟨?_, hacc.above⟩
    have habove := hl.above c hc
    omega

/-- A block that is freed is in the free list. -/
theorem Accounts.released (hb : b ∈ live) (hr : Released arena.base h b blocks h' blocks') :
    Accounts arena h' (live.erase b) blocks' := by
  have hperm := List.perm_cons_erase hb
  have hsub : ∀ c ∈ live.erase b, c ∈ live := fun c hc => List.mem_of_mem_erase hc
  refine ⟨fun x => ?_, fun x => hr.granted ▸ hacc.once x, fun d hd => ?_, fun d hd => ?_,
    fun d hd => hacc.nonempty d (hsub d hd), fun d hd => hacc.above d (hsub d hd)⟩
  · have hlive := @uses_perm _ _ x hperm
    have hbytes := hr.bytes x
    rw [uses_cons] at hlive hbytes
    rw [hr.granted, ← hacc.bytes x, uses_append, uses_append]
    omega
  · rcases mem_append.mp hd with hd | hd
    · obtain ⟨f, hf, heq⟩ := mem_map.mp (hr.headers d hd)
      rcases mem_cons.mp hf with rfl | hf
      · exact heq ▸ hacc.aligned f (mem_append_right blocks hb)
      · exact heq ▸ hacc.aligned f (mem_append_left live hf)
    · exact hacc.aligned d (mem_append_right blocks (hsub d hd))
  -- the freed block is not the only one, and it is not in use any more
  have hne : d.addr ≠ b.addr := by
    intro heq
    have hcount := hacc.unshared b.addr
    have hlive := @uses_perm _ _ b.addr hperm
    have hpos : 0 < uses (live.erase b) b.addr := uses_pos hd (heq ▸ Block.covers_addr (hacc.nonempty d (hsub d hd)))
    rw [uses_cons, if_pos (Block.covers_addr (hacc.nonempty b hb))] at hlive
    omega
  have hout : d.addr ∉ (b :: blocks).map Block.addr := by
    rw [map_cons, mem_cons, not_or]
    exact ⟨hne, hl.not_header (hacc.outside (hsub d hd))⟩
  exact (hr.kept d.addr hout).trans (hacc.sizes d (hsub d hd))

omit hl in
/-- All that the allocator has is below what `sbrk` gives next. -/
theorem Accounts.below (hp : arena.sbrk calls h.granted bytes = some p) (hc : c ∈ blocks ++ live) (hpos : 0 < c.size) :
    c.stop ≤ p := by
  -- the last byte of the block is in something that was given before
  have hlast : c.Covers (c.stop - 1) := by
    simp only [Block.Covers, Block.stop_eq]
    omega
  have huse := uses_pos hc hlast
  rw [hacc.bytes] at huse
  obtain ⟨g, hg, hcovers⟩ := covers_of_uses_pos huse
  have hbelow := arena.above hp g hg
  have hlt := hcovers.2
  omega

/-- The block that `sbrk` gave is in the free list. -/
theorem Accounts.grown (hp : arena.sbrk calls h.granted bytes = some p) (hr : Released arena.base
      { h with sbrks := k, granted := ⟨p, n⟩ :: h.granted, size := update h.size p n } ⟨p, n⟩ blocks h' blocks') :
    Accounts arena h' live blocks' := by
  have hgranted : h'.granted = ⟨p, n⟩ :: h.granted := hr.granted
  have hbelow : ∀ c ∈ live, c.addr < p := fun c hc => by
    have hpos := hacc.nonempty c hc
    have hstop := hacc.below hp (mem_append_right blocks hc) hpos
    rw [Block.stop_eq] at hstop
    omega
  refine ⟨fun x => ?_, fun x => ?_, fun d hd => ?_, fun d hd => ?_, hacc.nonempty, hacc.above⟩
  · have hbytes := hr.bytes x
    have hold := hacc.bytes x
    rw [uses_append] at hold
    rw [uses_cons] at hbytes
    rw [hgranted, uses_append, uses_cons]
    omega
  · rw [hgranted, uses_cons]
    by_cases hcovers : (⟨p, n⟩ : Block).Covers x
    · have hnone : uses h.granted x = 0 := by
        by_contra hne
        obtain ⟨g, hg, hgx⟩ := covers_of_uses_pos (Nat.pos_of_ne_zero hne)
        have hle := arena.above hp g hg
        have hlt := hgx.2
        have hge : p ≤ x := hcovers.1
        omega
      rw [hnone, if_pos hcovers]
    · rw [if_neg hcovers]
      exact hacc.once x
  · rcases mem_append.mp hd with hd | hd
    · obtain ⟨f, hf, heq⟩ := mem_map.mp (hr.headers d hd)
      rcases mem_cons.mp hf with rfl | hf
      · exact heq ▸ arena.aligned hp
      · exact heq ▸ hacc.aligned f (mem_append_left live hf)
    · exact hacc.aligned d (mem_append_right blocks hd)
  · have hout : d.addr ∉ ((⟨p, n⟩ : Block) :: blocks).map Block.addr := by
      rw [map_cons, mem_cons, not_or]
      exact ⟨(hbelow d hd).ne, hl.not_header (hacc.outside hd)⟩
    exact (hr.kept d.addr hout).trans ((update_of_ne (hbelow d hd).ne ..).trans (hacc.sizes d hd))

end

/-- The memory `sbrk` gave has a header now, apart from all the others. -/
theorem FreeList.header (hl : FreeList arena.base h blocks) (hacc : Accounts arena h live blocks)
    (hp : arena.sbrk calls h.granted bytes = some p) :
    FreeList arena.base { h with sbrks := k, granted := ⟨p, n⟩ :: h.granted, size := update h.size p n } blocks := by
  refine ⟨hl.circular, ?_, fun c hc => ?_, hl.nonempty, hl.above, hl.increasing, hl.freep⟩
  · exact (update_of_ne (arena.above_base hp).ne ..).trans hl.base_size
  have hpos := hl.nonempty c hc
  have hstop := hacc.below hp (mem_append_left live hc) hpos
  rw [Block.stop_eq] at hstop
  have hne : c.addr ≠ p := by omega
  exact (update_of_ne hne ..).trans (hl.sizes c hc)

/-- A free list has at most the block that was put into it more than before. -/
theorem Released.length_le {base : ℕ} (hr : Released base h b blocks h' blocks') :
    blocks'.length ≤ blocks.length + 1 := by
  have hsub : blocks'.map Block.addr ⊆ (b :: blocks).map Block.addr := fun x hx => by
    obtain ⟨f, hf, rfl⟩ := mem_map.mp hx
    exact hr.headers f hf
  have hle := (List.subperm_of_subset (List.nodup_cons.mp hr.list.nodup).2 hsub).length_le
  rwa [length_map, length_map, length_cons] at hle

/-- More memory: either there is none, or a block that is large enough is in the free list. -/
theorem morecore_spec (hl : FreeList arena.base h blocks) (hacc : Accounts arena h live blocks)
    (hsmall : HEADER * nunits < 2 ^ 31) (hfuel : blocks.length < fuel) :
    morecore arena fuel h nunits = some (0, { h with sbrks := h.sbrks + 1 }) ∨
    ∃ h' blocks', morecore arena fuel h nunits = some (h'.freep, h') ∧ FreeList arena.base h' blocks' ∧
      Accounts arena h' live blocks' ∧ blocks'.length ≤ blocks.length + 1 ∧ ∃ f ∈ blocks', nunits ≤ f.size := by
  have hmore : nunits ≤ moreUnits nunits ∧ 0 < moreUnits nunits ∧ moreUnits nunits * 8 < 2 ^ 31 := by
    have hsmall' : 8 * nunits < 2 ^ 31 := hsmall
    unfold moreUnits
    split <;> omega
  obtain ⟨hge, hpos, hbytes⟩ := hmore
  have hmod : moreUnits nunits * HEADER % 2 ^ 32 = moreUnits nunits * HEADER := by
    have hle : moreUnits nunits * HEADER < 2 ^ 31 := hbytes
    omega
  unfold morecore
  dsimp only
  rw [hmod, Nat.mul_div_cancel _ (by decide : 0 < HEADER)]
  cases hp : arena.sbrk h.sbrks h.granted (moreUnits nunits * HEADER) with
  | none => exact .inl rfl
  | some p =>
    have hapart : ∀ c ∈ blocks, (⟨p, moreUnits nunits⟩ : Block).Apart c := fun c hc =>
      .inr (hacc.below hp (mem_append_left live hc) (hl.nonempty c hc))
    obtain ⟨h', blocks', hfree, hr⟩ := @free_spec arena.base fuel _ ⟨p, moreUnits nunits⟩ blocks (hl.header hacc hp)
      (update_self ..) hpos (arena.above_base hp) hapart hfuel
    obtain ⟨f, hf, hgrown⟩ := hr.grown
    refine .inr ⟨h', blocks', ?_, hr.list, hacc.grown hl hp hr, hr.length_le, f, hf, hge.trans hgrown⟩
    dsimp only
    rw [hfree]

theorem FreeList.freep_ne (hl : FreeList arena.base h blocks) : h.freep ≠ 0 := by
  rcases mem_cons.mp hl.freep with hbase | hin
  · exact hbase ▸ arena.base_ne
  · obtain ⟨c, hc, heq⟩ := mem_map.mp hin
    have habove := hl.above c hc
    omega

/-- The blocks in use after a call of `malloc`. -/
def liveAfter (live : List Block) (r nunits : ℕ) : List Block := if r = 0 then live else ⟨r - HEADER, nunits⟩ :: live

theorem liveAfter_block (live : List Block) (b : Block) : liveAfter live (b.addr + HEADER) b.size = b :: live := by
  have hne : ¬b.addr + HEADER = 0 := Nat.succ_ne_zero _
  rw [liveAfter, if_neg hne, Nat.add_sub_cancel]

/-- `malloc` returns, with a block or without. -/
theorem mallocLoop_spec (hl : FreeList arena.base h blocks) (hacc : Accounts arena h live blocks) (hpos : 0 < nunits)
    (hsmall : HEADER * nunits < 2 ^ 31) (hfuel : 2 * blocks.length + 4 ≤ fuel) :
    ∃ r h' blocks', mallocLoop arena nunits fuel h h.freep (h.ptr h.freep) = some (r, h') ∧
      FreeList arena.base h' blocks' ∧ Accounts arena h' (liveAfter live r nunits) blocks' := by
  rcases hl.search hpos (by omega : blocks.length < fuel) with hfound | hnone
  · obtain ⟨b, h', blocks', heq, rfl, ht⟩ := hfound
    exact ⟨_, h', blocks', heq, ht.list, (liveAfter_block live b).symm ▸ hacc.taken hl ht hpos⟩
  obtain ⟨-, hfreep, last, rest, rfl, heq⟩ := hnone
  rw [heq, mallocLoop, if_neg (Nat.not_le_of_gt hfreep), if_pos rfl]
  rcases morecore_spec hl hacc hsmall (by omega : blocks.length < rest) with hno | hmore
  · rw [hno]
    exact ⟨0, _, blocks, rfl, { hl with }, { hacc with }⟩
  obtain ⟨h₁, blocks₁, hmore, hl₁, hacc₁, hlength, f, hf, hfit⟩ := hmore
  obtain ⟨q, hq⟩ := Nat.exists_eq_succ_of_ne_zero hl₁.freep_ne
  rw [hmore]
  -- a block is large enough now, so the second round finds one
  rcases hl₁.search hpos (by omega : blocks₁.length < rest) with hfound | hnone
  · obtain ⟨b, h', blocks', heq, rfl, ht⟩ := hfound
    refine ⟨_, h', blocks', ?_, ht.list, (liveAfter_block live b).symm ▸ hacc₁.taken hl₁ ht hpos⟩
    rw [hq] at heq ⊢
    exact heq
  · exact absurd hfit (Nat.not_le_of_gt (hnone.1 f hf))

theorem units_pos (nbytes : ℕ) : 0 < units nbytes := Nat.succ_pos _

/-- The rounding of a small request does not wrap. -/
theorem Small.units_eq (hs : Small nbytes) : units nbytes = (nbytes + 7) / 8 + 1 := by
  have hlt : 8 * ((nbytes + 7) / 8 + 1) < 2 ^ 31 := hs
  have hmod : (nbytes + 7) % 2 ^ 32 = nbytes + 7 := Nat.mod_eq_of_lt (by omega)
  change (nbytes + 7) % 2 ^ 32 / 8 + 1 = _
  rw [hmod]

theorem Small.units_lt (hs : Small nbytes) : HEADER * units nbytes < 2 ^ 31 := by
  rw [hs.units_eq]
  exact hs

/-- A block of that many headers has room for the request. -/
theorem Small.room (hs : Small nbytes) : HEADER + nbytes ≤ HEADER * units nbytes := by
  rw [hs.units_eq]
  change 8 + nbytes ≤ 8 * ((nbytes + 7) / 8 + 1)
  omega

/-- The first call finds an empty free list. -/
theorem FreeList.begin (h : Heap) : FreeList arena.base (h.begin arena.base) [] := by
  refine ⟨?_, update_self .., forall_mem_nil _, forall_mem_nil _, forall_mem_nil _, .nil,
    List.mem_singleton_self _⟩
  exact List.isChain_cons_cons.mpr ⟨update_self .., List.isChain_singleton _⟩

theorem Accounts.begin (hgranted : h.granted = []) : Accounts arena (h.begin arena.base) [] [] := by
  have hnone : (h.begin arena.base).granted = [] := hgranted
  refine ⟨fun x => ?_, fun x => ?_, forall_mem_nil _, forall_mem_nil _, forall_mem_nil _, forall_mem_nil _⟩
  · rw [hnone]
    rfl
  · rw [hnone]
    exact Nat.zero_le 1

/-- Every call of `malloc` returns. -/
theorem Sound.malloc (hs : Sound arena ⟨h, live⟩) (hsmall : Small nbytes) :
    ∃ k r h' blocks', (∀ fuel ≥ k, malloc arena fuel h nbytes = some (r, h')) ∧
      FreeList arena.base h' blocks' ∧ Accounts arena h' (liveAfter live r (units nbytes)) blocks' := by
  obtain ⟨h₀, blocks, hheap, hl, hacc⟩ : ∃ h₀ blocks, (if h.freep = 0 then h.begin arena.base else h) = h₀ ∧
      FreeList arena.base h₀ blocks ∧ Accounts arena h₀ live blocks := by
    cases hs with
    | unused hnull hgranted => exact ⟨_, [], if_pos hnull, .begin h, .begin hgranted⟩
    | used hl hacc => exact ⟨h, _, if_neg hl.freep_ne, hl, hacc⟩
  obtain ⟨r, h', blocks', heq, hl', hacc'⟩ := mallocLoop_spec hl hacc (units_pos nbytes) hsmall.units_lt le_rfl
  refine ⟨2 * blocks.length + 4, r, h', blocks', fun fuel hfuel => malloc_mono ?_ hfuel, hl', hacc'⟩
  rw [Malloc.malloc, hheap]
  exact heq

/-- Every call of `free` returns. -/
theorem Sound.free (hs : Sound arena ⟨h, live⟩) (hb : b ∈ live) :
    ∃ k h' blocks', (∀ fuel ≥ k, Malloc.free fuel h (b.addr + HEADER) = some h') ∧
      FreeList arena.base h' blocks' ∧ Accounts arena h' (live.erase b) blocks' := by
  cases hs with
  | unused hnull hgranted => cases hb
  | @used _ _ blocks hl hacc =>
    obtain ⟨h', blocks', heq, hr⟩ := free_spec hl (hacc.sizes b hb) (hacc.nonempty b hb) (hacc.above b hb)
      (hacc.apart hl hb) (Nat.lt_succ_self _)
    exact ⟨_, h', blocks', fun fuel hfuel => free_mono heq hfuel, hr.list, hacc.released hl hb hr⟩

/-- Only blocks in use that are the same meet. -/
theorem Accounts.eq_of_covers (hacc : Accounts arena h live blocks) (hb : b ∈ live) (hc : c ∈ live) (hbx : b.Covers x)
    (hcx : c.Covers x) : b = c := by
  by_contra hne
  have hcount := hacc.unshared x
  have hlive := @uses_perm _ _ x (List.perm_cons_erase hb)
  have hpos := uses_pos ((List.mem_erase_of_ne (Ne.symm hne)).mpr hc) hcx
  rw [uses_cons, if_pos hbx] at hlive
  omega

theorem Block.Payload.covers (hx : b.Payload x) : b.Covers x := ⟨(Nat.le_add_right ..).trans hx.1, hx.2⟩

theorem written_eq {old new : ℕ → ℕ} (hx : ∀ b ∈ live, ¬b.Payload x) : written live old new x = old x :=
  if_neg fun ⟨b, hb, hbx⟩ => hx b hb hbx

/-- What a program writes into its blocks touches no header. -/
theorem Sound.write (hs : Sound arena s) (ptr size : ℕ → ℕ) :
    Sound arena { s with
      heap := { s.heap with ptr := written s.live s.heap.ptr ptr, size := written s.live s.heap.size size } } := by
  cases hs with
  | unused hnull hgranted => exact .unused hnull hgranted
  | @used h live blocks hl hacc =>
    have hbase : ∀ b ∈ live, ¬b.Payload arena.base := fun b hb hx => by
      have habove := hacc.above b hb
      have hle := hx.covers.1
      omega
    have hfree : ∀ f ∈ blocks, ∀ b ∈ live, ¬b.Payload f.addr := fun f hf b hb hx => by
      have hcount := hacc.unshared f.addr
      have hpos := uses_pos hf (Block.covers_addr (hl.nonempty f hf))
      have hpos' := uses_pos hb hx.covers
      omega
    have hlive : ∀ d ∈ live, ∀ b ∈ live, ¬b.Payload d.addr := fun d hd b hb hx => by
      obtain rfl := hacc.eq_of_covers hb hd hx.covers (Block.covers_addr (hacc.nonempty d hd))
      have hge : b.addr + 8 ≤ b.addr := hx.1
      omega
    refine @Sound.used _ _ _ blocks
      ⟨hl.circular.congr fun x hx => ?_, ?_, fun f hf => ?_, hl.nonempty, hl.above, hl.increasing, hl.freep⟩
      ⟨hacc.bytes, hacc.once, hacc.aligned, fun d hd => ?_, hacc.nonempty, hacc.above⟩
    · rcases mem_cons.mp hx with rfl | hx
      · exact written_eq hbase
      · obtain ⟨f, hf, rfl⟩ := mem_map.mp hx
        exact written_eq (hfree f hf)
    · exact (written_eq hbase).trans hl.base_size
    · exact (written_eq (hfree f hf)).trans (hl.sizes f hf)
    · exact (written_eq (hlive d hd)).trans (hacc.sizes d hd)

/-- Every step of a program keeps the free list and the account of its memory. -/
theorem Sound.step {a : Action} {t : State} (hs : Sound arena s) (ha : step arena s a = some (.ok t)) :
    Sound arena t := by
  cases a with
  | malloc fuel nbytes =>
    simp only [Malloc.step] at ha
    split_ifs at ha with hsmall
    obtain ⟨⟨r, h'⟩, hm, ht⟩ := Option.map_eq_some_iff.mp ha
    obtain ⟨k, r', h'', blocks', hall, hl', hacc'⟩ := hs.malloc hsmall
    -- the result does not depend on the bound for the number of turns
    have hmore := malloc_mono hm (Nat.le_max_left fuel k)
    rw [hall _ (Nat.le_max_right fuel k)] at hmore
    cases hmore
    cases ht
    exact .used hl' hacc'
  | free fuel b =>
    simp only [Malloc.step] at ha
    split_ifs at ha with hb
    obtain ⟨h', hf, ht⟩ := Option.map_eq_some_iff.mp ha
    obtain ⟨k, h'', blocks', hall, hl', hacc'⟩ := hs.free hb
    have hmore := free_mono hf (Nat.le_max_left fuel k)
    rw [hall _ (Nat.le_max_right fuel k)] at hmore
    cases hmore
    cases ht
    exact .used hl' hacc'
  | write ptr size =>
    cases ha
    exact hs.write ptr size

end Invariant

/-- What a program can rely on: the free list, the account of the memory from `sbrk`, and the two calls. -/
structure Allocates (arena : Arena) (s : State) : Prop where
  /-- Before the first call there is no list. Then the list is circular and in increasing order, with gaps between its
  blocks; free blocks and blocks in use share no byte, and together have the bytes that `sbrk` gave. -/
  memory : s.heap.freep = 0 ∧ s.live = [] ∧ s.heap.granted = [] ∨
    ∃ blocks, FreeList arena.base s.heap blocks ∧ (blocks ++ s.live).Pairwise Block.Apart ∧
      ∀ x, (∃ b ∈ blocks ++ s.live, b.Covers x) ↔ ∃ g ∈ s.heap.granted, g.Covers x
  /-- A call returns, and the memory it returns is aligned, large enough and apart from all other blocks. -/
  malloc_returns : ∀ nbytes, Small nbytes →
    ∃ k r h' blocks', (∀ fuel ≥ k, malloc arena fuel s.heap nbytes = some (r, h')) ∧
    FreeList arena.base h' blocks' ∧ (r ≠ 0 → HEADER ∣ r ∧ ∃ b : Block, r = b.addr + HEADER ∧ r + nbytes ≤ b.stop ∧
      ∀ c ∈ blocks' ++ s.live, b.Apart c)
  free_returns : ∀ b ∈ s.live, ∃ k h', ∀ fuel ≥ k, free fuel s.heap (b.addr + HEADER) = some h'

section Results

variable {arena : Arena} {h : Heap} {live blocks : List Block} {s : State}

theorem Accounts.covers_iff (hacc : Accounts arena h live blocks) (x : ℕ) :
    (∃ b ∈ blocks ++ live, b.Covers x) ↔ ∃ g ∈ h.granted, g.Covers x := by
  have hbytes := hacc.bytes x
  constructor
  · rintro ⟨b, hb, hx⟩
    exact covers_of_uses_pos (hbytes ▸ uses_pos hb hx)
  · rintro ⟨g, hg, hx⟩
    exact covers_of_uses_pos (hbytes.symm ▸ uses_pos hg hx)

theorem Sound.allocates (hs : Sound arena s) : Allocates arena s := by
  refine ⟨?_, fun nbytes hsmall => ?_, fun b hb => ?_⟩
  · cases hs with
    | unused hnull hgranted => exact .inl ⟨hnull, rfl, hgranted⟩
    | used hl hacc => exact .inr ⟨_, hl, hacc.pairwise hl, hacc.covers_iff⟩
  · obtain ⟨k, r, h', blocks', hall, hl', hacc'⟩ := hs.malloc hsmall
    refine ⟨k, r, h', blocks', hall, hl', fun hr => ?_⟩
    rw [liveAfter, if_neg hr] at hacc'
    have hroom := hsmall.room
    have haligned := hacc'.aligned ⟨r - HEADER, units nbytes⟩ (by simp)
    have habove := hacc'.above ⟨r - HEADER, units nbytes⟩ mem_cons_self
    dsimp only [HEADER] at haligned habove hroom ⊢
    refine ⟨by omega, ⟨r - 8, units nbytes⟩, by dsimp only; omega, ?_, fun c hc => ?_⟩
    · rw [Block.stop_eq]
      dsimp only
      omega
    · have hpair := hacc'.pairwise hl'
      rcases mem_append.mp hc with hc | hc
      · exact ((List.pairwise_append.mp hpair).2.2 c hc _ mem_cons_self).symm
      · exact (List.pairwise_cons.mp (List.pairwise_append.mp hpair).2.1).1 c hc
  · obtain ⟨k, h', -, hall, -⟩ := hs.free hb
    exact ⟨k, h', hall⟩

theorem sound_of_run {ptr size : ℕ → ℕ} {trace : List Action} (hrun : Run (step arena) (.init ptr size) trace s) :
    Sound arena s :=
  hrun.invariant (P := fun _ s => Sound arena s) (.unused rfl rfl) fun _ _ _ _ _ hs ha => hs.step ha

/-- In every run of a program the allocator keeps its memory in order and every call returns. -/
theorem allocator_sound (arena : Arena) (ptr size : ℕ → ℕ) (trace : List Action) (s : State)
    (hrun : Run (step arena) (.init ptr size) trace s) : Allocates arena s := by
  exact (sound_of_run hrun).allocates

/-- A program that gets memory once. -/
def Arena.once : Arena where
  base := 8
  sbrk _ granted _ := if granted = [] then some 16 else none
  base_ne := by decide
  aligned := by
    intro _ granted _ p hp
    split at hp <;> cases hp
    decide
  above_base := by
    intro _ granted _ p hp
    split at hp <;> cases hp
    decide
  above := by
    intro _ granted _ p hp
    split at hp <;> cases hp
    next hnil => exact hnil ▸ forall_mem_nil _

/-- Three blocks are taken from the end of what `sbrk` gave, and the two that are freed are joined. -/
theorem allocator_sound_three_blocks :
    ∃ s, Run (step .once) (.init id id)
      [.malloc 9 100, .malloc 9 20, .malloc 9 7, .write (· + 1) (· + 2), .free 9 ⟨32672, 14⟩,
      .free 9 ⟨32640, 4⟩] s ∧ (s.live = [⟨32624, 2⟩] ∧ s.heap.freep = 16 ∧ s.heap.ptr 8 = 16 ∧ s.heap.ptr 16 = 32640) ∧
      Allocates .once s := by
  exact exists_run_and (fun s hrun => allocator_sound .once id id _ s hrun) (by decide +kernel)

/-- A request that is served: neither its rounding nor the number of bytes that `sbrk` would be asked for wraps, that
number is positive as an `int`, and the call returns no memory or as much as asked for, out of what `sbrk` gave. -/
structure Serves (arena : Arena) (h : Heap) (nbytes : ℕ) : Prop where
  rounding : nbytes + HEADER - 1 < 2 ^ 32
  bytes : 0 < moreUnits (units nbytes) * HEADER ∧ moreUnits (units nbytes) * HEADER < 2 ^ 31
  returns : ∃ k r h', (∀ fuel ≥ k, malloc arena fuel h nbytes = some (r, h')) ∧
    (r ≠ 0 → ∃ b : Block, r = b.addr + HEADER ∧ r + nbytes ≤ b.stop ∧ ∀ x, b.Covers x → ∃ g ∈ h'.granted, g.Covers x)

variable {nbytes : ℕ}

theorem Small.bytes (hs : Small nbytes) :
    0 < moreUnits (units nbytes) * HEADER ∧ moreUnits (units nbytes) * HEADER < 2 ^ 31 := by
  have hlt : 8 * units nbytes < 2 ^ 31 := hs.units_lt
  unfold moreUnits
  dsimp only [HEADER]
  split <;> omega

theorem Serves.small (hserves : Serves arena h nbytes) : Small nbytes := by
  have hrounding : nbytes + 7 < 2 ^ 32 := hserves.rounding
  have hlt : moreUnits (units nbytes) * 8 < 2 ^ 31 := hserves.bytes.2
  have hunits : units nbytes = (nbytes + 7) / 8 + 1 := by
    change (nbytes + 7) % 2 ^ 32 / 8 + 1 = _
    rw [Nat.mod_eq_of_lt hrounding]
  have hle : units nbytes ≤ moreUnits (units nbytes) := by
    unfold moreUnits
    split <;> omega
  change 8 * ((nbytes + 7) / 8 + 1) < 2 ^ 31
  omega

theorem Sound.serves (hs : Sound arena ⟨h, live⟩) (hsmall : Small nbytes) : Serves arena h nbytes := by
  have hlt : 8 * ((nbytes + 7) / 8 + 1) < 2 ^ 31 := hsmall
  obtain ⟨k, r, h', blocks', hall, -, hacc'⟩ := hs.malloc hsmall
  refine ⟨?_, hsmall.bytes, k, r, h', hall, fun hr => ?_⟩
  · dsimp only [HEADER]
    omega
  rw [liveAfter, if_neg hr] at hacc'
  have hroom : 8 + nbytes ≤ 8 * units nbytes := hsmall.room
  have habove := hacc'.above ⟨r - HEADER, units nbytes⟩ mem_cons_self
  refine ⟨⟨r - HEADER, units nbytes⟩, ?_, ?_, fun x hx => (hacc'.covers_iff x).mp ⟨_, by simp, hx⟩⟩
  · dsimp only [HEADER] at habove ⊢
    omega
  · rw [Block.stop_eq]
    dsimp only [HEADER] at habove ⊢
    omega

/-- After every run a request is served if its size, rounded and with a header, is below the half of memory, and no
other is. -/
theorem malloc_serves_iff (arena : Arena) (ptr size : ℕ → ℕ) {trace : List Action} {s : State}
    (hrun : Run (step arena) (.init ptr size) trace s) (nbytes : ℕ) : Serves arena s.heap nbytes ↔ Small nbytes := by
  have hs : Sound arena s := sound_of_run hrun
  exact ⟨Serves.small, hs.serves⟩

/-- After a block of 100 bytes one of 20 is to be had. -/
theorem malloc_serves_second : ∃ s, Run (step .once) (.init id id) [.malloc 9 100] s ∧ s.live = [⟨32672, 14⟩] ∧
    Serves .once s.heap 20 := by
  exact exists_run_and (fun s hrun => (malloc_serves_iff .once id id hrun 20).mpr (by decide)) (by decide +kernel)

/-- The rounding of `0xffffffff` bytes wraps to one header, and the block returned has room for nothing else. For
`0x7ffffff8` bytes `sbrk` is asked for `0x80000000`, which is negative as an `int`. -/
theorem malloc_wraps :
    (∃ r h', malloc .once 9 (State.init id id).heap 0xffffffff = some (r, h') ∧ r ≠ 0 ∧ h'.size (r - HEADER) = 1) ∧
      units 0x7ffffff8 = 0x10000000 ∧ moreUnits (units 0x7ffffff8) * HEADER = 0x80000000 := by
  refine ⟨⟨_, _, rfl, by decide +kernel, by decide +kernel⟩, by decide, by decide⟩

end Results

end Xv6.Malloc
