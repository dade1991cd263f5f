import Xv6.User.Malloc

/-!
# The free list of the allocator

The free blocks form a circular list from the static header through increasing addresses, with a gap between any two
of them. `free` finds the one place where a block belongs and joins it with its neighbours there; `malloc` takes a
block that is large enough, or the end of one, wherever its search started. Every byte that `sbrk` gave belongs to one
block, free or in use, and no other byte does.
-/

namespace Xv6.Malloc

open Lib
open Function (update update_self update_of_ne update_eq_self)
open List (mem_cons_of_mem mem_cons_self mem_append_left mem_append_right forall_mem_nil map_append cons_append
  append_assoc mem_map_of_mem append_inj' mem_append mem_cons pairwise_cons mem_map pairwise_append
    isChain_cons_cons singleton_inj)

/-- The byte is in the block. -/
def Block.Covers (b : Block) (x : ℕ) : Prop := b.addr ≤ x ∧ x < b.stop

instance (b : Block) (x : ℕ) : Decidable (b.Covers x) := inferInstanceAs (Decidable (_ ∧ _))

/-- The number of blocks a byte is in. -/
def uses (blocks : List Block) (x : ℕ) : ℕ := blocks.countP fun b => b.Covers x

/-- There is memory between the end of a block and the next. -/
def Block.Before (b c : Block) : Prop := b.stop < c.addr

/-- The blocks have no byte in common. -/
def Block.Apart (b c : Block) : Prop := b.stop ≤ c.addr ∨ c.stop ≤ b.addr

/-- The list of free blocks, as it is linked from the static header. -/
structure FreeList (base : ℕ) (h : Heap) (blocks : List Block) : Prop where
  circular : Threaded h.ptr (base :: blocks.map Block.addr ++ [base])
  base_size : h.size base = 0
  sizes : ∀ b ∈ blocks, h.size b.addr = b.size
  nonempty : ∀ b ∈ blocks, 0 < b.size
  above : ∀ b ∈ blocks, base < b.addr
  increasing : blocks.Pairwise Block.Before
  freep : h.freep ∈ base :: blocks.map Block.addr

section Blocks

variable {a b c : Block} {blocks A B : List Block} {x : ℕ}

theorem Block.stop_eq (b : Block) : b.stop = b.addr + 8 * b.size := rfl

@[simp] theorem uses_nil : uses [] x = 0 := rfl

theorem uses_cons : uses (b :: blocks) x = uses blocks x + if b.Covers x then 1 else 0 := by
  simp [uses, List.countP_cons]

theorem uses_append : uses (A ++ B) x = uses A x + uses B x := List.countP_append

theorem uses_pos (hb : b ∈ blocks) (hx : b.Covers x) : 0 < uses blocks x :=
  List.countP_pos_iff.mpr ⟨b, hb, decide_eq_true hx⟩

theorem covers_of_uses_pos (h : 0 < uses blocks x) : ∃ b ∈ blocks, b.Covers x := by
  obtain ⟨b, hb, hx⟩ := List.countP_pos_iff.mp h
  exact ⟨b, hb, of_decide_eq_true hx⟩

theorem uses_perm (h : A.Perm B) : uses A x = uses B x := h.countP_eq _

theorem Block.Apart.symm (h : b.Apart c) : c.Apart b := Or.symm h

/-- Two neighbouring blocks and the block they make together. -/
theorem uses_join (h : a.stop = b.addr) : uses [⟨a.addr, a.size + b.size⟩] x = uses [a] x + uses [b] x := by
  rw [Block.stop_eq] at h
  have hiff : (⟨a.addr, a.size + b.size⟩ : Block).Covers x ↔ a.Covers x ∨ b.Covers x := by
    simp only [Block.Covers, Block.stop_eq]
    omega
  have hnot : ¬(a.Covers x ∧ b.Covers x) := by
    simp only [Block.Covers, Block.stop_eq]
    omega
  simp only [uses_cons, uses_nil, hiff]
  by_cases ha : a.Covers x
  · have hb : ¬b.Covers x := fun hb => hnot ⟨ha, hb⟩
    simp [ha, hb]
  · simp [ha]

/-- Blocks none of which shares a byte with another. -/
theorem apart_of_uses_le (h : ∀ x, uses blocks x ≤ 1) (hpos : ∀ b ∈ blocks, 0 < b.size) :
    blocks.Pairwise Block.Apart := by
  induction blocks with
  | nil => exact .nil
  | cons b blocks ih =>
    refine .cons (fun c hc => ?_) (ih (fun x => ?_) fun c hc => hpos c (mem_cons_of_mem b hc))
    · by_contra hmeet
      -- the later of the two starts is in both
      have hb := hpos b mem_cons_self
      have hc' := hpos c (mem_cons_of_mem b hc)
      simp only [Block.Apart, Block.stop_eq] at hmeet
      have hcovers : b.Covers (max b.addr c.addr) := by
        simp only [Block.Covers, Block.stop_eq]
        omega
      have hcovers' : c.Covers (max b.addr c.addr) := by
        simp only [Block.Covers, Block.stop_eq]
        omega
      have huse := h (max b.addr c.addr)
      rw [uses_cons, if_pos hcovers] at huse
      have hpos' := uses_pos hc hcovers'
      omega
    · have huse := h x
      rw [uses_cons] at huse
      omega

theorem forall_mem_middle {motive : Block → Prop} (hold : ∀ c ∈ A ++ B, motive c) (hnew : motive b) :
    ∀ c ∈ A ++ b :: B, motive c := by
  intro c hc
  rcases mem_append.mp hc with hc | hc
  · exact hold c (mem_append_left B hc)
  · rcases mem_cons.mp hc with rfl | hc
    · exact hnew
    · exact hold c (mem_append_right A hc)

/-- Where a block belongs in the list of free blocks. -/
theorem cut (hincr : blocks.Pairwise Block.Before) (hapart : ∀ c ∈ blocks, b.Apart c) :
    ∃ A B, blocks = A ++ B ∧ (∀ a ∈ A, a.stop ≤ b.addr) ∧ ∀ c ∈ B, b.stop ≤ c.addr := by
  induction blocks with
  | nil => exact ⟨[], [], rfl, forall_mem_nil _, forall_mem_nil _⟩
  | cons c blocks ih =>
    obtain ⟨hfirst, hrest⟩ := pairwise_cons.mp hincr
    rcases hapart c mem_cons_self with hbefore | hafter
    · refine ⟨[], c :: blocks, rfl, forall_mem_nil _, fun d hd => ?_⟩
      rcases mem_cons.mp hd with rfl | hd
      · exact hbefore
      · have hgap : c.stop < d.addr := hfirst d hd
        have hle : c.addr ≤ c.stop := Nat.le_add_right ..
        omega
    · obtain ⟨A, B, rfl, hA, hB⟩ := ih hrest fun d hd => hapart d (mem_cons_of_mem c hd)
      exact ⟨c :: A, B, rfl, List.forall_mem_cons.mpr ⟨hafter, hA⟩, hB⟩

end Blocks

namespace FreeList

variable {base : ℕ} {h : Heap} {blocks : List Block} {b : Block}

/-- Addresses increase along the list. -/
theorem sorted (hl : FreeList base h blocks) : (base :: blocks.map Block.addr).Pairwise (· < ·) := by
  refine .cons (fun a ha => ?_) (List.pairwise_map.mpr (hl.increasing.imp fun {b c} hgap => ?_))
  · obtain ⟨b, hb, rfl⟩ := mem_map.mp ha
    exact hl.above b hb
  · have hle : b.addr ≤ b.stop := Nat.le_add_right ..
    exact hle.trans_lt hgap

theorem nodup (hl : FreeList base h blocks) : (base :: blocks.map Block.addr).Nodup := hl.sorted.imp Nat.ne_of_lt

end FreeList

section Insert

variable {base p n fuel : ℕ} {h : Heap} {b : Block} {blocks A B : List Block} {P : List ℕ}

/-- A block and the place in the list of free blocks where it belongs: after `A`, the last of which is at `p`, and
before `B`. -/
structure Place (base : ℕ) (h : Heap) (b : Block) (A B : List Block) (P : List ℕ) (p : ℕ) : Prop where
  list : FreeList base h (A ++ B)
  size : h.size b.addr = b.size
  nonempty : 0 < b.size
  above : base < b.addr
  before : ∀ a ∈ A, a.stop ≤ b.addr
  after : ∀ c ∈ B, b.stop ≤ c.addr
  last : base :: A.map Block.addr = P ++ [p]

/-- A block, perhaps joined with the first of those after it, and what is after it then. -/
structure Tail (base : ℕ) (h : Heap) (b : Block) (B : List Block) (n size : ℕ) (B' : List Block) : Prop where
  grown : b.size ≤ size
  thread : Threaded (update h.ptr b.addr n) (b.addr :: B'.map Block.addr ++ [base])
  subset : ∀ c ∈ B', c ∈ B
  gaps : (⟨b.addr, size⟩ :: B' : List Block).Pairwise Block.Before
  bytes : ∀ x, uses (⟨b.addr, size⟩ :: B') x = uses (b :: B) x

/-- The free list with a block put into it. -/
structure Released (base : ℕ) (h : Heap) (b : Block) (blocks : List Block) (h' : Heap) (blocks' : List Block) :
    Prop where
  list : FreeList base h' blocks'
  bytes : ∀ x, uses blocks' x = uses (b :: blocks) x
  headers : ∀ f ∈ blocks', f.addr ∈ (b :: blocks).map Block.addr
  grown : ∃ f ∈ blocks', b.size ≤ f.size
  kept : ∀ x ∉ (b :: blocks).map Block.addr, h'.size x = h.size x
  granted : h'.granted = h.granted
  sbrks : h'.sbrks = h.sbrks

namespace Place

variable (hp : Place base h b A B P p)

include hp

theorem addresses : base :: (A ++ B).map Block.addr = P ++ p :: B.map Block.addr := by
  rw [map_append, ← cons_append, hp.last, append_assoc, List.singleton_append]

theorem circle : Threaded h.ptr (P ++ p :: (B.map Block.addr ++ [base])) := by
  have hcircle := hp.list.circular
  rwa [hp.addresses, append_assoc, cons_append] at hcircle

variable {x size : ℕ} {B' : List Block}

/-- What comes before the block is at lower addresses. -/
theorem lower (hx : x ∈ P ++ [p]) : x < b.addr := by
  rw [← hp.last] at hx
  rcases mem_cons.mp hx with rfl | hx
  · exact hp.above
  obtain ⟨a, ha, rfl⟩ := mem_map.mp hx
  have hstop := hp.before a ha
  have hpos := hp.list.nonempty a (mem_append_left B ha)
  rw [Block.stop_eq] at hstop
  omega

theorem lower_last : p < b.addr :=
  hp.lower (mem_append_right P (List.mem_singleton_self p))

/-- What comes after the block is at higher addresses. -/
theorem higher (hx : x ∈ B.map Block.addr) : b.addr < x := by
  obtain ⟨c, hc, rfl⟩ := mem_map.mp hx
  have hstop := hp.after c hc
  have hpos := hp.nonempty
  rw [Block.stop_eq] at hstop
  omega

theorem addr_ne {c : Block} (hc : c ∈ A ++ B) : c.addr ≠ b.addr := by
  rcases mem_append.mp hc with hc | hc
  · exact (hp.lower (hp.last ▸ mem_cons_of_mem _ (mem_map_of_mem hc))).ne
  · exact (hp.higher (mem_map_of_mem hc)).ne'

theorem sorted : (P ++ p :: B.map Block.addr).Pairwise (· < ·) :=
  hp.addresses ▸ hp.list.sorted

/-- The search passes what is before the place. -/
theorem between_before (hx : x ∈ P) : between h b.addr x = false := by
  obtain ⟨l₁, l₂, hcut⟩ := (threaded_split.mp hp.circle).1.next_of_mem hx
  have hsorted : (l₁ ++ x :: h.ptr x :: l₂).Pairwise (· < ·) := by
    have hsub : (P ++ [p]).Sublist (P ++ p :: B.map Block.addr) := by simp
    exact hcut ▸ hp.sorted.sublist hsub
  have hlt : x < h.ptr x := (pairwise_cons.mp (pairwise_append.mp hsorted).2.1).1 _ mem_cons_self
  have hlow : h.ptr x < b.addr := hp.lower (hcut ▸ by simp)
  simp only [between]
  simp
  omega

/-- The search ends at the place. -/
theorem between_last : between h b.addr p = true := by
  have hlow := hp.lower_last
  have hlink := (threaded_split.mp hp.circle).2
  cases B with
  | nil =>
    have hwrap : h.ptr p = base := (isChain_cons_cons.mp hlink).1
    have hbase : base ≤ p := by
      rcases mem_cons.mp (hp.addresses ▸ (by simp : p ∈ P ++ p :: ([] : List Block).map Block.addr)) with rfl | hin
      · exact le_rfl
      · obtain ⟨a, ha, rfl⟩ := mem_map.mp hin
        exact (hp.list.above a ha).le
    simp [between, hwrap, hbase, hlow]
  | cons c B =>
    have hnext : h.ptr p = c.addr := (isChain_cons_cons.mp hlink).1
    have hhigh : b.addr < c.addr := hp.higher mem_cons_self
    simp [between, hnext, hhigh, hlow]

/-- The search passes what is after the place. -/
theorem between_after (hx : x ∈ B.map Block.addr) : between h b.addr x = false := by
  have hhigh := hp.higher hx
  have hthread : Threaded h.ptr (B.map Block.addr ++ [base]) := (threaded_split.mp hp.circle).2.tail
  obtain ⟨l₁, l₂, hcut⟩ := hthread.next_of_mem hx
  have hsorted : (B.map Block.addr).Pairwise (· < ·) :=
    (pairwise_cons.mp (pairwise_append.mp hp.sorted).2.1).2
  -- either the wrap or a step upwards
  have hnext : h.ptr x = base ∨ x < h.ptr x := by
    rcases List.eq_nil_or_concat l₂ with rfl | ⟨l₂, y, rfl⟩
    · have heq : B.map Block.addr ++ [base] = (l₁ ++ [x]) ++ [h.ptr x] := by simpa using hcut
      exact .inl (singleton_inj.mp (append_inj' heq rfl).2).symm
    · have heq : B.map Block.addr ++ [base] = (l₁ ++ x :: h.ptr x :: l₂) ++ [y] := by simpa using hcut
      rw [(append_inj' heq rfl).1] at hsorted
      exact .inr ((pairwise_cons.mp (pairwise_append.mp hsorted).2.1).1 _ mem_cons_self)
  have habove := hp.above
  simp only [between]
  simp
  omega

/-- The search of `free` ends where the block belongs. -/
theorem walk (hfuel : (A ++ B).length < fuel) : Lib.walk h.ptr (between h b.addr) fuel h.freep = some p := by
  have hin : p ∈ base :: (A ++ B).map Block.addr := by rw [hp.addresses]; simp
  refine hp.list.circular.walk_circle hp.list.nodup hin (fun x hx => ?_) hp.list.freep (by simpa using hfuel)
  rw [hp.addresses] at hx
  rcases mem_append.mp hx with hx | hx
  · have hne : x ≠ p := fun heq => ((pairwise_append.mp hp.sorted).2.2 x hx p mem_cons_self).ne heq
    simp [hp.between_before hx, hne]
  · rcases mem_cons.mp hx with rfl | hx
    · simp [hp.between_last]
    · have hne : x ≠ p := fun heq => ((hp.lower_last).trans (hp.higher hx)).ne' heq
      simp [hp.between_after hx, hne]

/-- After the first join the block is linked to what comes after it. -/
theorem joinNext_eq : ∃ n size B', joinNext h b.addr p =
      { h with ptr := update h.ptr b.addr n, size := update h.size b.addr size } ∧
      Tail base h b B n size B' := by
  have hlink := (threaded_split.mp hp.circle).2
  have hincr : B.Pairwise Block.Before := (pairwise_append.mp hp.list.increasing).2.1
  have hkept : ∀ x ∈ B.map Block.addr, update h.ptr b.addr (h.ptr p) x = h.ptr x := fun x hx =>
    update_of_ne (hp.higher hx).ne' ..
  -- without a join
  have hplain : b.addr + HEADER * h.size b.addr ≠ h.ptr p → (∀ c ∈ B, b.stop ≠ c.addr) →
      ∃ n size B', joinNext h b.addr p =
        { h with ptr := update h.ptr b.addr n, size := update h.size b.addr size } ∧
        Tail base h b B n size B' := by
    intro hapart hne
    refine ⟨h.ptr p, b.size, B, ?_, le_rfl, hlink.relink (update_self ..) hkept, fun _ hc => hc,
      .cons (fun c hc => (hp.after c hc).lt_of_ne (hne c hc)) hincr, fun _ => rfl⟩
    rw [joinNext, if_neg hapart, ← hp.size, update_eq_self]
  cases B with
  | nil =>
    have hwrap : h.ptr p = base := (isChain_cons_cons.mp hlink).1
    refine hplain ?_ (forall_mem_nil _)
    have habove := hp.above
    omega
  | cons c B =>
    have hnext : h.ptr p = c.addr := (isChain_cons_cons.mp hlink).1
    have hsize : h.size c.addr = c.size := hp.list.sizes c (by simp)
    obtain ⟨hgap, hincr'⟩ := pairwise_cons.mp hincr
    by_cases hjoin : b.stop = c.addr
    · refine ⟨h.ptr c.addr, b.size + c.size, B, ?_, Nat.le_add_right .., ?_, fun d hd => mem_cons_of_mem c hd,
        .cons (fun d hd => ?_) hincr', fun x => ?_⟩
      · have hmeet : b.addr + HEADER * h.size b.addr = h.ptr p := by rw [hp.size, hnext]; exact hjoin
        rw [joinNext, if_pos hmeet, hnext, hp.size, hsize]
      · have hrest : Threaded h.ptr (c.addr :: B.map Block.addr ++ [base]) := hlink.tail
        refine hrest.relink (update_self ..) fun x hx => ?_
        exact update_of_ne (hp.higher (mem_cons_of_mem _ hx)).ne' ..
      · have hlt : c.stop < d.addr := hgap d hd
        simp only [Block.Before, Block.stop_eq] at hjoin hlt ⊢
        omega
      · have hsum := @uses_join b c x hjoin
        simp only [uses_cons, uses_nil] at hsum ⊢
        omega
    · refine hplain ?_ fun d hd => ?_
      · rw [hp.size, hnext]
        exact hjoin
      rcases mem_cons.mp hd with rfl | hd
      · exact hjoin
      · have hlt : c.stop < d.addr := hgap d hd
        have hle := hp.after c mem_cons_self
        simp only [Block.stop_eq] at hlt hle ⊢
        omega

/-- Without a join with `p` the block comes after it. -/
theorem insert_apart (ht : Tail base h b B n size B') (hgap : ∀ a ∈ A, a.stop ≠ b.addr) : Released base h b (A ++ B)
      { h with
        ptr := update (update h.ptr b.addr n) p b.addr
        size := update h.size b.addr size
        freep := p }
      (A ++ ⟨b.addr, size⟩ :: B') := by
  have hlow := hp.lower_last
  have haddr : base :: (A ++ ⟨b.addr, size⟩ :: B').map Block.addr = P ++ p :: b.addr :: B'.map Block.addr := by
    rw [map_append, ← cons_append, hp.last, append_assoc]
    rfl
  have hsub : ∀ c ∈ A ++ B', c ∈ A ++ B := fun c hc =>
    (mem_append.mp hc).elim (mem_append_left B) fun hc => mem_append_right A (ht.subset c hc)
  refine ⟨⟨?_, ?_, ?_, ?_, ?_, ?_, ?_⟩, fun x => ?_, ?_, ⟨⟨b.addr, size⟩, by simp, ht.grown⟩, fun x hx => ?_, rfl, rfl⟩
  · rw [haddr, append_assoc, cons_append]
    refine threaded_split.mpr ⟨(threaded_split.mp hp.circle).1.congr fun x hx => ?_, ?_⟩
    · have hxp := (pairwise_append.mp hp.sorted).2.2 x hx p mem_cons_self
      exact (update_of_ne hxp.ne ..).trans (update_of_ne (hxp.trans hlow).ne ..)
    refine isChain_cons_cons.mpr ⟨update_self .., ht.thread.congr fun x hx => ?_⟩
    refine update_of_ne (Nat.ne_of_gt ?_) ..
    rcases mem_cons.mp hx with rfl | hx
    · exact hlow
    · obtain ⟨c, hc, rfl⟩ := mem_map.mp hx
      exact hlow.trans (hp.higher (mem_map_of_mem (ht.subset c hc)))
  · exact (update_of_ne hp.above.ne ..).trans hp.list.base_size
  · refine forall_mem_middle (fun c hc => ?_) (update_self ..)
    exact (update_of_ne (hp.addr_ne (hsub c hc)) ..).trans (hp.list.sizes c (hsub c hc))
  · exact forall_mem_middle (fun c hc => hp.list.nonempty c (hsub c hc)) (hp.nonempty.trans_le ht.grown)
  · exact forall_mem_middle (fun c hc => hp.list.above c (hsub c hc)) hp.above
  · refine pairwise_append.mpr ⟨(pairwise_append.mp hp.list.increasing).1, ht.gaps, fun a ha c hc => ?_⟩
    rcases mem_cons.mp hc with rfl | hc
    · exact (hp.before a ha).lt_of_ne (hgap a ha)
    · exact (pairwise_append.mp hp.list.increasing).2.2 a ha c (ht.subset c hc)
  · rw [haddr]
    simp
  · have hbytes := ht.bytes x
    rw [uses_cons, uses_cons] at hbytes
    rw [uses_cons, uses_append, uses_append, uses_cons]
    omega
  · refine forall_mem_middle (fun c hc => mem_map_of_mem (mem_cons_of_mem b (hsub c hc))) ?_
    exact mem_cons_self
  · have hne : x ≠ b.addr := fun heq => hx (heq ▸ mem_cons_self)
    exact update_of_ne hne ..

omit hp in
/-- The block joined with the one at `p`. -/
theorem insert_joined {a : Block} (hp : Place base h b (A ++ [a]) B P p) (ht : Tail base h b B n size B')
    (hjoin : a.stop = b.addr) : Released base h b (A ++ [a] ++ B)
      { h with
        ptr := update (update h.ptr b.addr n) p n
        size := update (update h.size b.addr size) p (a.size + size)
        freep := p }
      (A ++ ⟨a.addr, a.size + size⟩ :: B') := by
  have hlow := hp.lower_last
  obtain ⟨hP, hpa⟩ : base :: A.map Block.addr = P ∧ a.addr = p := by
    have hlast := hp.last
    rw [map_append, ← cons_append] at hlast
    obtain ⟨hP, hpa⟩ := append_inj' hlast rfl
    exact ⟨hP, singleton_inj.mp hpa⟩
  have haddr : base :: (A ++ ⟨a.addr, a.size + size⟩ :: B').map Block.addr = P ++ p :: B'.map Block.addr := by
    rw [map_append, ← cons_append, hP, ← hpa]
    rfl
  have hsub : ∀ c ∈ A ++ B', c ∈ A ++ [a] ++ B := fun c hc =>
    (mem_append.mp hc).elim (fun hc => mem_append_left B (mem_append_left [a] hc))
      fun hc => mem_append_right _ (ht.subset c hc)
  have hmid : a ∈ A ++ [a] ++ B := by simp
  have hbelow : ∀ x ∈ P, x < p := fun x hx => (pairwise_append.mp hp.sorted).2.2 x hx p mem_cons_self
  have hincr := hp.list.increasing
  rw [append_assoc, List.singleton_append] at hincr
  obtain ⟨hincrA, hincrB, hacross⟩ := pairwise_append.mp hincr
  have hne : ∀ c ∈ A ++ B', c.addr ≠ p := fun c hc => by
    rcases mem_append.mp hc with hc | hc
    · exact (hbelow _ (hP ▸ mem_cons_of_mem _ (mem_map_of_mem hc))).ne
    · exact (hlow.trans (hp.higher (mem_map_of_mem (ht.subset c hc)))).ne'
  refine ⟨⟨?_, ?_, ?_, ?_, ?_, ?_, ?_⟩, fun x => ?_, ?_, ⟨⟨a.addr, a.size + size⟩, by simp, ?_⟩, fun x hx => ?_,
    rfl, rfl⟩
  · rw [haddr, append_assoc, cons_append]
    refine threaded_split.mpr ⟨(threaded_split.mp hp.circle).1.congr fun x hx => ?_, ?_⟩
    · have hxp := hbelow x hx
      exact (update_of_ne hxp.ne ..).trans (update_of_ne (hxp.trans hlow).ne ..)
    · have hself : update h.ptr b.addr n b.addr = n := update_self ..
      refine ht.thread.relink ((update_self ..).trans hself.symm) fun x hx => ?_
      obtain ⟨c, hc, rfl⟩ := mem_map.mp hx
      exact update_of_ne (hne c (mem_append_right A hc)) ..
  · have hbase : base < p := hbelow base (hP ▸ mem_cons_self)
    exact (update_of_ne hbase.ne ..).trans
      ((update_of_ne hp.above.ne ..).trans hp.list.base_size)
  · refine forall_mem_middle (fun c hc => ?_) (hpa ▸ update_self ..)
    exact (update_of_ne (hne c hc) ..).trans
      ((update_of_ne (hp.addr_ne (hsub c hc)) ..).trans (hp.list.sizes c (hsub c hc)))
  · exact forall_mem_middle (fun c hc => hp.list.nonempty c (hsub c hc)) (Nat.lt_add_right _ (hp.list.nonempty a hmid))
  · exact forall_mem_middle (fun c hc => hp.list.above c (hsub c hc)) (hp.list.above a hmid)
  · obtain ⟨hgaps, hincr'⟩ := pairwise_cons.mp ht.gaps
    refine pairwise_append.mpr ⟨hincrA, .cons (fun c hc => ?_) hincr', fun d hd c hc => ?_⟩
    · have hlt : b.addr + 8 * size < c.addr := hgaps c hc
      simp only [Block.Before, Block.stop_eq] at hjoin ⊢
      omega
    · rcases mem_cons.mp hc with rfl | hc
      · exact hacross d hd a mem_cons_self
      · exact hacross d hd c (mem_cons_of_mem a (ht.subset c hc))
  · rw [haddr]
    simp
  · have hbytes := ht.bytes x
    have hsum := @uses_join a ⟨b.addr, size⟩ x hjoin
    simp only [uses_cons, uses_append, uses_nil] at hbytes hsum ⊢
    omega
  · refine forall_mem_middle (fun c hc => mem_map_of_mem (mem_cons_of_mem b (hsub c hc))) ?_
    exact mem_cons_of_mem _ (mem_map.mpr ⟨a, hmid, rfl⟩)
  · exact ht.grown.trans (Nat.le_add_left ..)
  · have hne : x ≠ b.addr := fun heq => hx (heq ▸ mem_cons_self)
    have hne' : x ≠ p := fun heq => hx (heq ▸ hpa ▸ mem_cons_of_mem _ (mem_map_of_mem hmid))
    exact (update_of_ne hne' ..).trans (update_of_ne hne ..)

/-- The block is put into the list and joined with its neighbours. -/
theorem insert :
    ∃ blocks', Released base h b (A ++ B) { joinPrev (joinNext h b.addr p) b.addr p with freep := p } blocks' := by
  obtain ⟨n, size, B', hnext, ht⟩ := hp.joinNext_eq
  have hlow := hp.lower_last
  have hsize : update h.size b.addr size p = h.size p := update_of_ne hlow.ne ..
  have hself : update h.size b.addr size b.addr = size := update_self ..
  have hptr : update h.ptr b.addr n b.addr = n := update_self ..
  simp only [hnext, joinPrev, hsize, hself, hptr]
  rcases List.eq_nil_or_concat A with rfl | ⟨A, a, rfl⟩
  · -- the static header is never joined
    obtain ⟨rfl, hpbase⟩ : P = [] ∧ p = base := by
      have hlast := hp.last
      cases P with
      | nil => exact ⟨rfl, (singleton_inj.mp hlast).symm⟩
      | cons x P => simp at hlast
    have hne : ¬p + HEADER * h.size p = b.addr := by
      rw [hpbase, hp.list.base_size]
      exact hp.above.ne
    rw [if_neg hne]
    exact ⟨_, hp.insert_apart ht (forall_mem_nil _)⟩
  have hpa : a.addr = p := by
    have hlast := hp.last
    rw [List.concat_eq_append, map_append, ← cons_append] at hlast
    exact singleton_inj.mp (append_inj' hlast rfl).2
  rw [List.concat_eq_append] at hp ⊢
  have hasize : h.size p = a.size := hpa ▸ hp.list.sizes a (by simp)
  by_cases hjoin : a.stop = b.addr
  · have hmeet : p + HEADER * h.size p = b.addr := by
      rw [hasize, ← hpa]
      exact hjoin
    rw [if_pos hmeet, hasize]
    exact ⟨_, hp.insert_joined ht hjoin⟩
  have hne : ¬p + HEADER * h.size p = b.addr := by
    rw [hasize, ← hpa]
    exact hjoin
  rw [if_neg hne]
  refine ⟨_, hp.insert_apart ht fun c hc => ?_⟩
  rcases mem_append.mp hc with hc' | hc'
  · have hincr := (pairwise_append.mp (pairwise_append.mp hp.list.increasing).1).2.2 c hc' a (by simp)
    have hle := hp.before a (by simp)
    have hac : a.addr ≤ a.stop := Nat.le_add_right ..
    exact (Nat.lt_of_lt_of_le hincr (hac.trans hle)).ne
  · obtain rfl : c = a := List.mem_singleton.mp hc'
    exact hjoin

end Place

/-- `free` puts a block into the list, wherever the search starts. -/
theorem free_spec (hl : FreeList base h blocks) (hsize : h.size b.addr = b.size) (hpos : 0 < b.size)
    (habove : base < b.addr)
    (hapart : ∀ c ∈ blocks, b.Apart c) (hfuel : blocks.length < fuel) :
    ∃ h' blocks', free fuel h (b.addr + HEADER) = some h' ∧ Released base h b blocks h' blocks' := by
  obtain ⟨A, B, rfl, hbefore, hafter⟩ := cut hl.increasing hapart
  obtain ⟨P, p, hlast⟩ : ∃ P p, base :: A.map Block.addr = P ++ [p] :=
    ⟨_, _, (List.dropLast_append_getLast (List.cons_ne_nil base (A.map Block.addr))).symm⟩
  have hp : Place base h b A B P p := ⟨hl, hsize, hpos, habove, hbefore, hafter, hlast⟩
  obtain ⟨blocks', hreleased⟩ := hp.insert
  refine ⟨_, blocks', ?_, hreleased⟩
  rw [free, Nat.add_sub_cancel]
  rw [hp.walk hfuel]

end Insert

section Take

variable {base p prev nunits fuel : ℕ} {h h' : Heap} {b f : Block} {blocks blocks' A B : List Block} {arena : Arena}

/-- The free list with a block taken out of it. -/
structure Taken (base : ℕ) (h : Heap) (blocks : List Block) (b : Block) (h' : Heap) (blocks' : List Block) : Prop where
  list : FreeList base h' blocks'
  size : h'.size b.addr = b.size
  bytes : ∀ x, uses (b :: blocks') x = uses blocks x
  headers : ∀ c ∈ blocks', c.addr ∈ blocks.map Block.addr
  within : ∃ c ∈ blocks, ∃ k, b.addr = c.addr + HEADER * k
  kept : ∀ x, uses blocks x = 0 → h'.size x = h.size x
  granted : h'.granted = h.granted
  sbrks : h'.sbrks = h.sbrks

section

variable (hl : FreeList base h (A ++ f :: B))

include hl

/-- The headers before a block, and the header that is linked to it. -/
theorem FreeList.cut_at : ∃ P p, base :: A.map Block.addr = P ++ [p] ∧
      Threaded h.ptr (P ++ p :: f.addr :: (B.map Block.addr ++ [base])) ∧
      (P ++ p :: f.addr :: B.map Block.addr).Pairwise (· < ·) := by
  obtain ⟨P, p, hlast⟩ : ∃ P p, base :: A.map Block.addr = P ++ [p] :=
    ⟨_, _, (List.dropLast_append_getLast (List.cons_ne_nil base (A.map Block.addr))).symm⟩
  have haddr : base :: (A ++ f :: B).map Block.addr = P ++ p :: f.addr :: B.map Block.addr := by
    rw [map_append, ← cons_append, hlast, append_assoc]
    rfl
  refine ⟨P, p, hlast, ?_, haddr ▸ hl.sorted⟩
  have hcircle := hl.circular
  rwa [haddr, append_assoc] at hcircle

/-- A block of the right size is taken out of the list. -/
theorem FreeList.unlink (hprev : prev ∈ base :: (A ++ f :: B).map Block.addr) (hlink : h.ptr prev = f.addr) :
    Taken base h (A ++ f :: B) f { h with ptr := update h.ptr prev (h.ptr f.addr), freep := prev } (A ++ B) := by
  obtain ⟨P, p, hlast, hcircle, hsorted⟩ := hl.cut_at
  obtain ⟨hfirst, hsecond⟩ := threaded_split.mp hcircle
  obtain ⟨hpf, hrest⟩ := isChain_cons_cons.mp hsecond
  have hp : p ∈ base :: A.map Block.addr := hlast ▸ mem_append_right P (List.mem_singleton_self p)
  have hp' : p ∈ base :: (A ++ f :: B).map Block.addr := by
    rw [map_append, ← cons_append]
    exact mem_append_left _ hp
  obtain rfl : prev = p := hl.circular.inj hl.nodup hprev hp' (hlink.trans hpf.symm)
  have haddr : base :: (A ++ B).map Block.addr = P ++ prev :: B.map Block.addr := by
    rw [map_append, ← cons_append, hlast, append_assoc]
    rfl
  have hsub : ∀ c ∈ A ++ B, c ∈ A ++ f :: B := fun c hc =>
    (List.sublist_cons_self f B).append_left A |>.mem hc
  have hupper := (pairwise_cons.mp (pairwise_append.mp hsorted).2.1).1
  refine ⟨⟨?_, hl.base_size, fun c hc => hl.sizes c (hsub c hc), fun c hc => hl.nonempty c (hsub c hc),
    fun c hc => hl.above c (hsub c hc), hl.increasing.sublist ((List.sublist_cons_self f B).append_left A), ?_⟩,
    hl.sizes f (by simp), fun x => ?_, fun c hc => mem_map_of_mem (hsub c hc), ⟨f, by simp, 0, rfl⟩, fun _ _ => rfl,
      rfl, rfl⟩
  · rw [haddr, append_assoc, cons_append]
    refine threaded_split.mpr ⟨hfirst.congr fun x hx => ?_, ?_⟩
    · have hlt := (pairwise_append.mp hsorted).2.2 x hx prev mem_cons_self
      exact update_of_ne hlt.ne ..
    · refine Threaded.relink hrest (update_self ..) fun x hx => ?_
      exact update_of_ne (hupper x (mem_cons_of_mem _ hx)).ne' ..
  · rw [haddr]
    simp
  · simp only [uses_cons, uses_append]
    omega

/-- The end of a larger block is taken out of it. -/
theorem FreeList.shrink (hprev : prev ∈ base :: (A ++ f :: B).map Block.addr) (hpos : 0 < nunits)
    (hlt : nunits < f.size) : Taken base h (A ++ f :: B) ⟨f.addr + HEADER * (f.size - nunits), nunits⟩
      { h with
        size := update (update h.size f.addr (f.size - nunits)) (f.addr + HEADER * (f.size - nunits)) nunits
        freep := prev }
      (A ++ ⟨f.addr, f.size - nunits⟩ :: B) := by
  have hmid : f ∈ A ++ f :: B := by simp
  have hsub : ∀ c ∈ A ++ B, c ∈ A ++ f :: B := fun c hc => (List.sublist_cons_self f B).append_left A |>.mem hc
  have habove := hl.above f hmid
  obtain ⟨hincrA, hincrB, hacross⟩ := pairwise_append.mp hl.increasing
  obtain ⟨hgap, hincrB⟩ := pairwise_cons.mp hincrB
  have haddr : (A ++ ⟨f.addr, f.size - nunits⟩ :: B).map Block.addr = (A ++ f :: B).map Block.addr := by simp
  -- the other headers are outside the block
  have hout : ∀ c ∈ A ++ B, c.addr < f.addr ∨ f.stop < c.addr := fun c hc => by
    rcases mem_append.mp hc with hc | hc
    · have hlt : c.stop < f.addr := hacross c hc f mem_cons_self
      exact .inl ((Nat.le_add_right ..).trans_lt hlt)
    · exact .inr (hgap c hc)
  have hkept : ∀ x, x < f.addr ∨ f.stop ≤ x →
      update (update h.size f.addr (f.size - nunits)) (f.addr + HEADER * (f.size - nunits)) nunits x = h.size x := by
    intro x hx
    rw [Block.stop_eq] at hx
    have hne : x ≠ f.addr + 8 * (f.size - nunits) := by omega
    have hne' : x ≠ f.addr := by omega
    exact (update_of_ne hne ..).trans (update_of_ne hne' ..)
  refine ⟨⟨haddr ▸ hl.circular, ?_, ?_, ?_, ?_, ?_, haddr ▸ hprev⟩, update_self .., fun x => ?_, fun c hc => ?_,
    ⟨f, hmid, _, rfl⟩, fun x hx => hkept x ?_, rfl, rfl⟩
  · exact (hkept base (.inl habove)).trans hl.base_size
  · refine forall_mem_middle (fun c hc => ?_) ?_
    · exact (hkept c.addr ((hout c hc).imp_right Nat.le_of_lt)).trans (hl.sizes c (hsub c hc))
    · have hne : f.addr ≠ f.addr + 8 * (f.size - nunits) := by omega
      exact (update_of_ne hne ..).trans (update_self ..)
  · exact forall_mem_middle (fun c hc => hl.nonempty c (hsub c hc)) (Nat.sub_pos_of_lt hlt)
  · exact forall_mem_middle (fun c hc => hl.above c (hsub c hc)) habove
  · refine pairwise_append.mpr ⟨hincrA, .cons (fun c hc => ?_) hincrB, fun a ha c hc => ?_⟩
    · have hlt : f.stop < c.addr := hgap c hc
      simp only [Block.Before, Block.stop_eq] at hlt ⊢
      omega
    · rcases mem_cons.mp hc with rfl | hc
      · exact hacross a ha f mem_cons_self
      · exact hacross a ha c (mem_cons_of_mem f hc)
  · have hsum := @uses_join ⟨f.addr, f.size - nunits⟩ ⟨f.addr + HEADER * (f.size - nunits), nunits⟩ x rfl
    have hwhole : (⟨f.addr, f.size - nunits + nunits⟩ : Block) = f := by
      rw [Nat.sub_add_cancel hlt.le]
    rw [hwhole] at hsum
    simp only [uses_cons, uses_append, uses_nil] at hsum ⊢
    omega
  · exact haddr ▸ mem_map_of_mem hc
  · by_contra hin
    have hcovers : f.Covers x := by
      simp only [Block.Covers]
      omega
    exact (uses_pos hmid hcovers).ne' hx

end

/-- Taking memory from a block that is large enough. -/
theorem take_spec (hl : FreeList base h blocks) (hf : f ∈ blocks) (hprev : prev ∈ base :: blocks.map Block.addr)
    (hlink : h.ptr prev = f.addr) (hpos : 0 < nunits) (hfit : nunits ≤ f.size) :
    ∃ b h' blocks', take h nunits prev f.addr = (b.addr + HEADER, h') ∧ b.size = nunits ∧
      Taken base h blocks b h' blocks' := by
  obtain ⟨A, B, rfl⟩ := List.append_of_mem hf
  have hsize : h.size f.addr = f.size := hl.sizes f hf
  by_cases hexact : f.size = nunits
  · refine ⟨f, _, A ++ B, ?_, hexact, hl.unlink hprev hlink⟩
    rw [take, if_pos (hsize.trans hexact)]
  · refine ⟨_, _, _, ?_, rfl, hl.shrink hprev hpos (Nat.lt_of_le_of_ne hfit (Ne.symm hexact))⟩
    simp only [take, hsize, if_neg hexact, update_self]

end Take

end Xv6.Malloc
