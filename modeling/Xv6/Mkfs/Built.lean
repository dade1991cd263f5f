import Xv6.Tree.Mkfs
import Xv6.Mkfs.Append

/-!
# The image while `mkfs` runs

The inodes handed out so far hold the bytes appended to them so far, each with exactly the blocks it
needs, and every other place in the inode blocks is zero. The block counter is then told by the sizes.
Each call of `ialloc` and `iappend` keeps this, or stops because the blocks do not fit.
-/

namespace Xv6.Mkfs

open Lib Lib.Buffer Xv6.Tree

/-- A file of `size` bytes has the slots of the blocks that hold its bytes. -/
theorem card_touchedSlots (size : ℕ) : (touchedSlots 0 size).card = blocks size := by
  have hblocks : touchedBlocks 0 size = Finset.range ((size + (BSIZE - 1)) / BSIZE) := by
    ext bn
    rw [mem_touchedBlocks, Finset.mem_range]
    simp only [BSIZE]
    omega
  have hdata : ((touchedBlocks 0 size).image bnSlot).card = (size + (BSIZE - 1)) / BSIZE := by
    rw [Finset.card_image_of_injective _ fun _ _ => bnSlot_inj, hblocks, Finset.card_range]
  have hslots : touchedSlots 0 size =
      (touchedBlocks 0 size).image bnSlot ∪ if NDIRECT * BSIZE < size then {NDIRECT} else ∅ := by
    ext k
    simp only [touchedSlots, Finset.mem_biUnion, mem_bnSlots, Finset.mem_union, Finset.mem_image]
    constructor
    · rintro ⟨bn, hbn, rfl | ⟨hle, rfl⟩⟩
      · exact .inl ⟨bn, hbn, rfl⟩
      · have hlt := (mem_touchedBlocks.mp hbn).2.2
        rw [Nat.zero_add] at hlt
        rw [if_pos ((Nat.mul_le_mul_right _ hle).trans_lt hlt)]
        exact .inr (Finset.mem_singleton_self _)
    rintro (⟨bn, hbn, rfl⟩ | hind)
    · exact ⟨bn, hbn, .inl rfl⟩
    split at hind
    · next hlt =>
      refine ⟨NDIRECT, mem_touchedBlocks.mpr ?_, .inr ⟨le_rfl, Finset.mem_singleton.mp hind⟩⟩
      simp only [BSIZE, NDIRECT] at hlt ⊢
      omega
    · exact absurd hind (Finset.notMem_empty _)
  have hdisjoint : Disjoint ((touchedBlocks 0 size).image bnSlot)
      (if NDIRECT * BSIZE < size then {NDIRECT} else ∅ : Finset ℕ) := by
    split
    · rw [Finset.disjoint_singleton_right, Finset.mem_image]
      rintro ⟨bn, -, hbn⟩
      exact bnSlot_ne bn hbn
    · exact Finset.disjoint_empty_right _
  rw [hslots, Finset.card_union_of_disjoint hdisjoint, hdata, blocks]
  split <;> rfl

theorem blocks_mono {a b : ℕ} (h : a ≤ b) : blocks a ≤ blocks b := by
  unfold blocks
  simp only [BSIZE, NDIRECT]
  split <;> split <;> omega

/-- Inode `i` is a file of the given type and bytes, with the blocks that hold them and no others. -/
structure Stores (v : Image) (i : ℕ) (type : Int16) (bytes : List UInt8) : Prop where
  regular : v.regular i
  type : (v.inode i).type = type
  nlink : (v.inode i).nlink = 1
  contents : v.contents i = bytes
  noHoles : v.NoHoles i
  tight : v.Tight i

namespace Stores

variable {v w : Image} {i : ℕ} {type : Int16} {bytes : List UInt8}

theorem size (h : Stores v i type bytes) : (v.inode i).size.toNat = bytes.length := by
  rw [← h.contents, Image.length_contents]

/-- A file that is left alone. -/
theorem same (h : Stores v i type bytes) (hsb : w.sb = v.sb) (hsame : v.SameFile w i) : Stores w i type bytes := by
  obtain ⟨⟨hlt, htype⟩, hdev⟩ := h.regular
  refine ⟨⟨⟨hsb ▸ hlt, by rwa [hsame.inode]⟩, by rwa [hsame.inode]⟩, ?_, ?_, ?_, ?_, ?_, ?_⟩
  · rw [hsame.inode, h.type]
  · rw [hsame.inode, h.nlink]
  · rw [hsame.contents, h.contents]
  · intro bn hbn
    rw [hsame.inode] at hbn
    rw [hsame.blocks]
    exact h.noHoles bn hbn
  · intro bn hbn
    rw [hsame.blocks] at hbn
    rw [hsame.inode]
    exact h.tight.data bn hbn
  · intro hind
    rw [hsame.blocks] at hind
    rw [hsame.inode]
    exact h.tight.indirect hind

variable {img : Img}

variable (h : Stores img.image i type bytes)

include h

variable (howned : img.image.Owned)

include howned

/-- The slots that hold a block are those of the bytes. -/
theorem own_ne_zero (k : ℕ) : img.image.own (i, k) ≠ 0 ↔ k ∈ touchedSlots 0 bytes.length := by
  have hready := Img.ready_opened howned h.regular.1
  constructor
  · intro hown
    by_cases hk : k = NDIRECT
    · subst hk
      have hlt := h.tight.indirect hown
      rw [h.size] at hlt
      refine Finset.mem_biUnion.mpr ⟨NDIRECT, mem_touchedBlocks.mpr ?_, mem_bnSlots.mpr (.inr ⟨le_rfl, rfl⟩)⟩
      simp only [BSIZE, NDIRECT] at hlt ⊢
      omega
    obtain ⟨bn, rfl⟩ : ∃ bn, k = bnSlot bn := by
      by_cases hlt : k < NDIRECT
      · exact ⟨k, (if_pos hlt).symm⟩
      · exact ⟨k - 1, by rw [bnSlot, if_neg (by omega)]; omega⟩
    have hlt := h.tight.data bn hown
    rw [h.size] at hlt
    refine bnSlot_mem_biUnion.mpr (mem_touchedBlocks.mpr ?_)
    simp only [BSIZE] at hlt ⊢
    omega
  · intro hk hown
    have hnone := missing_eq_empty hready.held (by rw [hready.view]; exact h.noHoles)
      (.inr (show 0 + bytes.length ≤ _ by rw [Nat.zero_add]; exact h.size.ge))
    have hmem : k ∈ missing (img.opened i) 0 (touchedSlots 0 bytes.length) :=
      Finset.mem_filter.mpr ⟨hk, by rw [hready.view]; exact hown⟩
    rw [hnone] at hmem
    exact Finset.notMem_empty k hmem

/-- The blocks that `n` more bytes need. -/
theorem card_missing (n : ℕ) : (missing (img.opened i) 0 (touchedSlots bytes.length n)).card + blocks bytes.length =
      blocks (bytes.length + n) := by
  have hready := Img.ready_opened howned h.regular.1
  have hmissing : missing (img.opened i) 0 (touchedSlots bytes.length n) =
      touchedSlots bytes.length n \ touchedSlots 0 bytes.length := by
    ext k
    rw [missing, Finset.mem_filter, Finset.mem_sdiff, ← h.own_ne_zero howned, not_not, hready.view]
    rfl
  have happend := touchedSlots_append 0 bytes.length n
  rw [Nat.zero_add] at happend
  rw [← card_touchedSlots, ← card_touchedSlots, happend, hmissing, Finset.card_sdiff_add_card, Finset.union_comm]

/-- Bytes appended by `iappend`. -/
theorem wrote {img' : Img} {fs' : Fs} (himage : fs'.image = img'.image) {p : ℕ → UInt8} {n : ℕ}
    (hmax : bytes.length + n ≤ MAXFILE * BSIZE)
    (hwrote : Wrote (img.opened i) fs' 0 p (img.image.inode i).size.toNat n) :
    Stores img'.image i type (bytes ++ (List.range n).map p) := by
  have hready := Img.ready_opened howned h.regular.1
  rw [h.size] at hwrote
  have hsize : bytes.length ≤ ((img.opened i).din 0).size.toNat := h.size.ge
  have heffect := Fs.effect_of_wrote hready hwrote hsize hmax
  have hreshape := heffect.reshape i
  have hcontents := hwrote.contents hready hsize hmax
  have hnode : fs'.image.inode i = fs'.din 0 := by
    rw [Fs.image_inode, hwrote.table]
    exact Function.update_self _ _ _
  have hdin : (fs'.din 0).type = (img.image.inode i).type ∧ (fs'.din 0).nlink = (img.image.inode i).nlink := by
    rw [hwrote.din]
    exact ⟨rfl, rfl⟩
  have hregular : fs'.image.regular i := by
    obtain ⟨⟨hlt, htype⟩, hdev⟩ := h.regular
    refine ⟨⟨?_, by rwa [hnode, hdin.1]⟩, by rwa [hnode, hdin.1]⟩
    rw [show fs'.image.sb = _ from hwrote.sb]
    exact hlt
  rw [← himage]
  refine ⟨hregular, ?_, ?_, ?_, ?_, ?_⟩
  · rw [hnode, hdin.1, h.type]
  · rw [hnode, hdin.2, h.nlink]
  · have hold : (img.opened i).image.contents ((img.opened i).inum 0) = bytes := h.contents
    rw [hold, replaceBytes, List.take_length, List.drop_eq_nil_of_le (by omega), List.append_nil] at hcontents
    exact hcontents
  · exact hreshape.noHoles heffect.sb (fun _ => h.noHoles) hregular
  · exact hreshape.tight heffect.sb (fun _ => h.tight) hregular

end Stores

/-- An inode of the image: its type and bytes. -/
abbrev INode : Type := Int16 × List UInt8

/-- The first block behind those of the given inodes. -/
def extent (nodes : List INode) : ℕ := nmeta + (nodes.map fun node => blocks node.2.length).sum

theorem extent_set {nodes : List INode} {k : ℕ} {old : INode} (hk : nodes[k]? = some old) (new : INode) :
    extent (nodes.set k new) + blocks old.2.length = extent nodes + blocks new.2.length := by
  induction nodes generalizing k with
  | nil => cases hk
  | cons node rest ih =>
    cases k with
    | zero =>
      rw [List.getElem?_cons_zero, Option.some.injEq] at hk
      subst hk
      simp only [extent, List.set_cons_zero, List.map_cons, List.sum_cons]
      omega
    | succ k =>
      have hrest := ih (List.getElem?_cons_succ ▸ hk)
      simp only [extent, List.set_cons_succ, List.map_cons, List.sum_cons] at hrest ⊢
      omega

/-- The image holds the given inodes, the first with number 1, and no others. -/
structure Built (img : Img) (nodes : List INode) : Prop where
  sound : img.Sound
  sblock : img.disk 1 = putsb mkfsSuperblock
  owned : img.image.Owned
  freeinode : img.freeinode = nodes.length + 1
  freeblock : img.freeblock = extent nodes
  node : ∀ {k : ℕ} {type : Int16} {bytes : List UInt8}, nodes[k]? = some (type, bytes) →
    Stores img.image (k + 1) type bytes
  rest : ∀ i, i = 0 ∨ nodes.length < i → img.image.inode i = Dinode.zero

namespace Built

variable {img : Img} {nodes : List INode} {k : ℕ} {type : Int16} {bytes : List UInt8}

/-- Appending bytes to an inode, if the blocks fit. -/
theorem iappend (h : Built img nodes) (hk : nodes[k]? = some (type, bytes)) (p : ℕ → UInt8) {n : ℕ} (hn : 0 < n)
    (hmax : bytes.length + n ≤ MAXFILE * BSIZE) :
    (∃ img', img.iappend (k + 1) p n = .ok img' ∧ Built img' (nodes.set k (type, bytes ++ (List.range n).map p))) ∨
    img.iappend (k + 1) p n = .error .perror ∧
      FSSIZE < extent (nodes.set k (type, bytes ++ (List.range n).map p)) := by
  have hstores := h.node hk
  have hmissing := hstores.card_missing h.owned n
  have hextent := extent_set hk (type, bytes ++ (List.range n).map p)
  simp only [List.length_append, List.length_map, List.length_range] at hextent
  have hsize := hstores.size
  have hfree := h.freeblock
  rcases Img.iappend_writei h.sound h.owned hstores.regular.1 p hn (hsize ▸ hmax) with
    ⟨img', fs', happend, hsound, himage, hwrote, hblocks⟩ | ⟨happend, hfull⟩
  · have hdisk : fs'.disk = img'.marked := congrArg Image.disk himage
    have hone : (1 : ℕ) ≠ capacity.bmapstart := by decide
    refine .inl ⟨img', happend, hsound, ?_, ?_, ?_, ?_, ?_, ?_⟩
    · rw [← h.sblock, ← Img.marked_of_ne hone, ← Img.marked_of_ne hone, ← hdisk]
      exact hwrote.sblock
    · rw [← himage]
      exact hwrote.ready.owned
    · rw [(Counts.iappend happend).freeinode, h.freeinode, List.length_set]
    · rw [hsize] at hblocks
      omega
    · intro j type' bytes' hj
      by_cases hjk : j = k
      · subst hjk
        rw [List.getElem?_set_self (List.getElem?_eq_some_iff.mp hk).1] at hj
        cases hj
        exact hstores.wrote h.owned himage hmax hwrote
      · rw [List.getElem?_set_ne (Ne.symm hjk)] at hj
        have hsame := hwrote.sameFile (j := j + 1) (by show j + 1 ≠ k + 1; omega)
        rw [himage] at hsame
        exact (h.node hj).same rfl hsame
    · intro i hi
      rw [List.length_set] at hi
      have hlt := (List.getElem?_eq_some_iff.mp hk).1
      have hsame := hwrote.sameFile (j := i) (by show i ≠ k + 1; omega)
      rw [himage] at hsame
      rw [hsame.inode]
      exact h.rest i hi
  · rw [hsize] at hfull
    exact .inr ⟨happend, by omega⟩

end Built

/-- Storing an inode without blocks over one without blocks leaves the other files alone. -/
theorem sameFile_storeDinode {fs : Fs} {i j : ℕ} {d : Dinode} (h : fs.image.Owned) (hi : i < fs.sb.ninodes)
    (hd : ∀ k, d.addr k = 0) (hempty : ∀ k, fs.image.own (i, k) = 0) (hj : j ≠ i) :
    fs.image.SameFile (fs.storeDinode i d).image j := by
  have hown := Fs.own_storeDinode h hi hd hempty
  have hinode : (fs.storeDinode i d).image.inode j = fs.image.inode j := by
    rw [Fs.image_inode, Fs.table_storeDinode hi, Function.update_of_ne hj, Fs.image_inode]
  have hcont : ∀ s, (fs.storeDinode i d).image.cont s = fs.image.cont s := by
    intro s
    rw [Image.cont, Image.cont, hown]
    split
    · rfl
    · next hnone => exact Fs.disk_storeDinode h.layout hi (h.bmapstart_le_own s (not_or.mp hnone).1)
  have hbyte : (fs.storeDinode i d).image.fileByte j = fs.image.fileByte j := by
    funext x
    rw [Image.fileByte, Image.fileByte, hcont]
  exact ⟨hinode, fun k => hown _, by rw [Image.contents, Image.contents, hinode, hbyte]⟩

theorem newDinode_addr (type : Int16) (k : ℕ) : (newDinode type).addr k = 0 := by
  simp [newDinode, Dinode.addr, Dinode.zero]

namespace Built

variable {img : Img} {nodes : List INode} {k : ℕ} {type : Int16} {bytes : List UInt8}

/-- A new inode is an empty file. -/
theorem ialloc (h : Built img nodes) (htype : type ≠ 0) (hdev : type ≠ T_DEV)
    (hlt : nodes.length + 1 < capacity.ninodes) :
    ∃ img', img.ialloc type = .ok (nodes.length + 1, img') ∧ Built img' (nodes ++ [(type, [])]) := by
  let fs := Fs.boot capacity img.marked
  have hzero : img.image.inode (nodes.length + 1) = Dinode.zero := h.rest _ (.inr (Nat.lt_succ_self _))
  have hdead : ¬img.image.live (nodes.length + 1) := by
    rintro ⟨-, hlive⟩
    rw [hzero] at hlive
    exact hlive rfl
  have hempty : ∀ k, fs.image.own (nodes.length + 1, k) = 0 := fun k => if_neg hdead
  have hsound : { img with freeinode := img.freeinode + 1 }.Sound :=
    ⟨h.sound.length, h.sound.next_ge, h.sound.next_le, h.sound.fresh⟩
  obtain ⟨img', hwinode, hsound', hinode, hblock, hmarked⟩ := Img.winode_spec hsound hlt (newDinode type)
  have himage : (fs.storeDinode (nodes.length + 1) (newDinode type)).image = img'.image :=
    Img.image_eq rfl hmarked.symm
  have hdisk : (fs.storeDinode (nodes.length + 1) (newDinode type)).disk = img'.marked :=
    congrArg Image.disk himage
  have hone : (1 : ℕ) ≠ capacity.bmapstart := by decide
  have hown := @Fs.own_storeDinode fs _ _ h.owned hlt (newDinode_addr type) hempty
  have htable := @Fs.table_storeDinode fs _ (newDinode type) hlt
  have hsame : ∀ j ≠ nodes.length + 1, img.image.SameFile img'.image j := by
    intro j hj
    rw [← himage]
    exact sameFile_storeDinode h.owned hlt (newDinode_addr type) hempty hj
  refine ⟨img', ?_, hsound', ?_, ?_, ?_, ?_, ?_, ?_⟩
  · rw [Img.ialloc, h.freeinode] at *
    rw [hwinode, ok_bind]
  · rw [← h.sblock, ← Img.marked_of_ne hone, ← Img.marked_of_ne hone, ← hdisk]
    exact @Fs.sblock_storeDinode fs _ _ h.owned.layout
  · rw [← himage]
    exact Fs.owned_storeDinode h.owned hlt (newDinode_addr type) hempty
  · rw [hinode, List.length_append]
    exact congrArg (· + 1) h.freeinode
  · have hnil : (([(type, [])] : List INode).map fun node => blocks node.2.length).sum = 0 := by simp [blocks]
    rw [hblock, extent, List.map_append, List.sum_append, hnil, Nat.add_zero]
    exact h.freeblock
  · intro j type' bytes' hj
    by_cases hjk : j < nodes.length
    · rw [List.getElem?_append_left hjk] at hj
      exact (h.node hj).same rfl (hsame _ (by omega))
    rw [List.getElem?_append_right (by omega)] at hj
    obtain ⟨hj0, hnode⟩ := List.getElem?_eq_some_iff.mp hj
    have hend : j = nodes.length := by
      rw [List.length_singleton] at hj0
      omega
    subst hend
    obtain ⟨rfl, rfl⟩ := Prod.mk.inj ((List.getElem_singleton hj0).symm.trans hnode)
    have hnew : img'.image.inode (nodes.length + 1) = newDinode type := by
      rw [← himage, Fs.image_inode, htable, Function.update_self]
    have hnone : ∀ k, img'.image.own (nodes.length + 1, k) = 0 := by
      intro k
      rw [← himage, hown, hempty]
    refine ⟨⟨⟨hlt, by rwa [hnew]⟩, by rwa [hnew]⟩, ?_, ?_, ?_, ?_, ?_, ?_⟩
    · rw [hnew]
      rfl
    · rw [hnew]
      rfl
    · rw [Image.contents, hnew]
      rfl
    · intro bn hbn
      rw [hnew] at hbn
      exact absurd hbn (Nat.not_lt_zero _)
    · exact fun bn hbn => absurd (hnone _) hbn
    · exact fun hind => absurd (hnone _) hind
  · intro i hi
    rw [List.length_append, List.length_singleton] at hi
    rw [(hsame i (by omega)).inode]
    exact h.rest i (by omega)

theorem inum_lt (h : Built img nodes) (hk : nodes[k]? = some (type, bytes)) : k + 1 < capacity.ninodes :=
  (h.node hk).regular.1.1

/-- What `read` returned is appended, however it was split, if it fits. -/
theorem copyFile (h : Built img nodes) (hk : nodes[k]? = some (type, bytes)) {chunks : List (List UInt8)}
    (hpos : ∀ c ∈ chunks, 0 < c.length) :
    (∃ img', copyFile img (k + 1) chunks = .ok img' ∧ Built img' (nodes.set k (type, bytes ++ chunks.flatten))) ∨
    (∃ e, copyFile img (k + 1) chunks = .error e) ∧
      (MAXFILE * BSIZE < (bytes ++ chunks.flatten).length ∨
        FSSIZE < extent (nodes.set k (type, bytes ++ chunks.flatten))) := by
  induction chunks generalizing img nodes bytes with
  | nil =>
    refine .inl ⟨img, rfl, ?_⟩
    obtain ⟨hlt, hget⟩ := List.getElem?_eq_some_iff.mp hk
    rw [List.flatten_nil, List.append_nil, ← hget, List.set_getElem_self]
    exact h
  | cons c rest ih =>
    have hcpos := hpos c List.mem_cons_self
    have hbytes : (List.range c.length).map (cstr c) = c := by
      apply List.ext_getElem
      · simp
      · intro i h₁ h₂
        simp [cstr, List.getElem?_eq_getElem h₂]
    have hlen : (bytes ++ (c :: rest).flatten).length = bytes.length + c.length + rest.flatten.length := by
      simp only [List.flatten_cons, List.length_append]
      omega
    rw [Mkfs.copyFile]
    by_cases hmax : bytes.length + c.length ≤ MAXFILE * BSIZE
    · rcases h.iappend hk (cstr c) hcpos hmax with ⟨img', happend, hbuilt⟩ | ⟨happend, hfull⟩
      · rw [hbytes] at hbuilt
        have hself := List.getElem?_set_self (a := (type, bytes ++ c)) (List.getElem?_eq_some_iff.mp hk).1
        have hrest := ih hbuilt hself fun d hd => hpos d (List.mem_cons_of_mem c hd)
        rw [List.set_set, List.append_assoc, ← List.flatten_cons] at hrest
        rw [happend, ok_bind]
        exact hrest
      rw [hbytes] at hfull
      refine .inr ⟨⟨_, by rw [happend, error_bind]⟩, .inr ?_⟩
      have hpart := extent_set hk (type, bytes ++ c)
      have hwhole := extent_set hk (type, bytes ++ (c :: rest).flatten)
      have hmono := blocks_mono (show (bytes ++ c).length ≤ (bytes ++ (c :: rest).flatten).length by
        rw [hlen, List.length_append]
        omega)
      dsimp only at hpart hwhole
      omega
    · have hsize := (h.node hk).size
      obtain ⟨e, hfail⟩ := Img.iappend_max (p := cstr c) h.sound (h.inum_lt hk) hcpos (by rw [hsize]; omega)
      refine .inr ⟨⟨e, by rw [hfail, error_bind]⟩, .inl ?_⟩
      omega

end Built

end Xv6.Mkfs
