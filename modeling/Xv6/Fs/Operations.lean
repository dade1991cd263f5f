import Xv6.Fs.Directory
import Xv6.Fs.Effect

/-!
# Operations on inodes

An operation is a call of one of the inode functions, made as its callers make it. Each one that
completes has one of the effects of `Fs.Effect` and keeps the inode cache right, so the invariant
of the file system holds in every state a run reaches.
-/

namespace Xv6

open Lib Lib.Buffer
open Function (update update_idem update_self update_of_ne update_eq_self)

section Calls

variable {fs fs₁ fs' : Fs} {ip : Fin NINODE} {inum : ℕ} {type : Int16}

/-- `iget` finds the entry that holds the inode, or recycles one when there is none. -/
theorem iget_cases (h : iget fs inum = .ok (ip, fs')) : 0 < (fs.icache ip).ref ∧ fs.inum ip = inum ∧
      fs' = fs.setInode ip { fs.icache ip with ref := (fs.icache ip).ref + 1 } ∨
    (∀ jp, 0 < (fs.icache jp).ref → fs.inum jp ≠ inum) ∧ (fs.icache ip).ref = 0 ∧
      fs' = fs.setInode ip { fs.icache ip with inum := inum, ref := 1, busy := false, valid := false } := by
  unfold iget at h
  split at h
  · next hfind =>
    cases h
    have hfound := List.find?_some hfind
    simp only [Bool.and_eq_true, decide_eq_true_eq, beq_iff_eq] at hfound
    exact .inl ⟨hfound.1, hfound.2, rfl⟩
  next hnone =>
  have habsent : ∀ jp, 0 < (fs.icache jp).ref → fs.inum jp ≠ inum := by
    intro jp href heq
    have hnot := List.find?_eq_none.mp hnone jp (List.mem_finRange jp)
    simp only [Bool.and_eq_true, decide_eq_true_eq, beq_iff_eq] at hnot
    exact hnot ⟨href, heq⟩
  split at h
  · next hfind =>
    cases h
    have hfound := List.find?_some hfind
    exact .inr ⟨habsent, by simpa using hfound, rfl⟩
  · cases h

theorem iget_cached (h : fs.Cached) (hinum : inum < fs.sb.ninodes) (hok : iget fs inum = .ok (ip, fs')) :
    fs'.Cached := by
  rcases iget_cases hok with ⟨href, -, rfl⟩ | ⟨habsent, -, rfl⟩
  · exact h.retain href _ _ _ id
  apply h.setInode
  · exact fun _ => hinum
  · exact fun _ jp _ => habsent jp
  · intro _ hvalid
    cases hvalid

/-- `iget` changes nothing on disk. -/
theorem iget_disk (h : iget fs inum = .ok (ip, fs')) : fs'.sb = fs.sb ∧ fs'.disk = fs.disk := by
  rcases iget_cases h with ⟨-, -, rfl⟩ | ⟨-, -, rfl⟩
  · exact ⟨rfl, rfl⟩
  · exact ⟨rfl, rfl⟩

theorem Fs.setInode_icache (fs : Fs) (ip : Fin NINODE) (node : Inode) : (fs.setInode ip node).icache ip = node :=
  update_self _ _ _

theorem Fs.setInode_setInode (fs : Fs) (ip : Fin NINODE) (node node' : Inode) :
    (fs.setInode ip node).setInode ip node' = fs.setInode ip node' := by
  simp only [setInode, update_idem]

theorem Fs.setInode_self (fs : Fs) (ip : Fin NINODE) : fs.setInode ip (fs.icache ip) = fs := by
  simp only [setInode, update_eq_self]

/-- `iput` of an inode with links or other references drops the reference. -/
theorem iput_keep (h : ¬((fs.icache ip).ref = 1 ∧ (fs.icache ip).valid ∧ (fs.icache ip).din.nlink = 0)) :
    iput fs ip = .ok (fs.setInode ip { fs.icache ip with ref := (fs.icache ip).ref - 1 }) := if_neg h

/-- Dropping the reference `iget` gave undoes it, up to the contents of an unused entry. -/
theorem iget_iput (hget : iget fs inum = .ok (ip, fs₁)) :
    iput fs₁ ip = .ok fs ∨ ∃ node, node.ref = 0 ∧ iput fs₁ ip = .ok (fs.setInode ip node) := by
  rcases iget_cases hget with ⟨href, -, rfl⟩ | ⟨-, -, rfl⟩
  · left
    rw [iput_keep]
    · rw [Fs.setInode_setInode, Fs.setInode_icache]
      rw [Int.add_sub_cancel, Fs.setInode_self]
    · rw [Fs.setInode_icache]
      dsimp only
      omega
  · right
    refine ⟨{ fs.icache ip with inum := inum, ref := 0, busy := false, valid := false }, rfl, ?_⟩
    rw [iput_keep]
    · rw [Fs.setInode_setInode, Fs.setInode_icache]
      rfl
    · rw [Fs.setInode_icache]
      simp

/-- An inode number `ialloc` picks is free. -/
theorem ialloc_cases (h : ialloc fs type = .ok (ip, fs')) : ∃ inum < fs.sb.ninodes, (fs.table inum).type = 0 ∧
      iget (fs.storeDinode inum { Dinode.zero with type := type }) inum = .ok (ip, fs') := by
  unfold ialloc at h
  split at h
  · next inum hfind =>
    have hmem := List.mem_of_find?_eq_some hfind
    have hfound := List.find?_some hfind
    rw [List.mem_range'_1] at hmem
    have hlt : inum < fs.sb.ninodes := by omega
    refine ⟨inum, hlt, ?_, h⟩
    rw [Fs.table, if_pos hlt]
    simpa [Fs.bread] using hfound
  · cases h

/-- A free inode has no blocks. -/
theorem own_of_type_eq_zero {i : ℕ} (h : (fs.table i).type = 0) (k : ℕ) : fs.image.own (i, k) = 0 := by
  rw [Image.own, if_neg]
  exact fun hlive => hlive.2 h

theorem ialloc_effect (h : fs.Inv) (hok : ialloc fs type = .ok (ip, fs')) : fs.Effect fs' ∧ fs'.Cached := by
  obtain ⟨inum, hlt, hfree, hget⟩ := ialloc_cases hok
  have hzero : ∀ k, ({ Dinode.zero with type := type } : Dinode).addr k = 0 := by
    simp [Dinode.addr, Dinode.zero]
  have hempty := own_of_type_eq_zero hfree
  have hcached : (fs.storeDinode inum { Dinode.zero with type := type }).Cached := by
    refine ⟨h.cached.range, h.cached.unique, fun jp href hvalid => ?_⟩
    obtain ⟨hcoherent, htype⟩ := h.cached.coherent jp href hvalid
    -- no valid entry holds a free inode
    have hne : fs.inum jp ≠ inum := by
      rintro rfl
      rw [← hcoherent] at htype
      exact htype hfree
    rw [Fs.table_storeDinode hlt]
    exact ⟨(update_of_ne hne _ _).trans hcoherent, htype⟩
  refine ⟨?_, iget_cached hcached hlt hget⟩
  obtain ⟨hsb, hdisk⟩ := iget_disk hget
  refine Fs.Effect.trans_disk ?_ hsb hdisk
  refine .of_cleared (Fs.owned_storeDinode h.owned hlt hzero hempty) rfl
    (Fs.sblock_storeDinode h.owned.layout) (Fs.table_storeDinode hlt) rfl fun s => ?_
  rw [Fs.own_storeDinode h.owned hlt hzero hempty]
  split
  · next hs => rw [← hempty s.2, ← hs]
  · rfl

/-- Reads succeed and change nothing: no block below the size is missing. -/
theorem readOnly_of_inv (h : fs.Inv) (hready : fs.Ready ip) : ReadOnly fs ip := by
  intro off n
  by_cases hdev : (fs.din ip).type = T_DEV
  · unfold readi
    rw [if_pos hdev]
    split
    · exact ⟨_, rfl⟩
    · exact ⟨_, rfl⟩
  · by_cases hreject : (fs.din ip).size.toNat < off.toNat ∨ 2 ^ 32 ≤ off.toNat + n.toNat
    · exact ⟨_, readi_reject hdev hreject⟩
    · exact ⟨_, readi_accept hready (h.noHoles_of_ready hready hdev) hdev (by omega) (by omega)⟩

/-- `writei` changes nothing, writes all the bytes, or runs out of blocks. -/
theorem writei_outcome (h : fs.Inv) (hready : fs.Ready ip) (src : ℕ → UInt8) (off n : UInt32) :
    (∃ r, writei fs ip src off n = .ok (r, fs)) ∨
    (∃ fs', writei fs ip src off n = .ok (n.toNat, fs') ∧ Wrote fs fs' ip src off.toNat n.toNat ∧
      off.toNat ≤ (fs.din ip).size.toNat ∧ off.toNat + n.toNat ≤ MAXFILE * BSIZE) ∨
    writei fs ip src off n = .error "balloc: out of blocks" := by
  by_cases hdev : (fs.din ip).type = T_DEV
  · unfold writei
    rw [if_pos hdev]
    split
    · exact .inl ⟨_, rfl⟩
    · exact .inl ⟨_, rfl⟩
  by_cases hreject : (fs.din ip).size.toNat < off.toNat ∨ 2 ^ 32 ≤ off.toNat + n.toNat ∨
      MAXFILE * BSIZE < off.toNat + n.toNat
  · exact .inl ⟨_, writei_reject src hdev hreject⟩
  obtain ⟨hoff, hrest⟩ := not_or.mp hreject
  have hmax := not_lt.mp (not_or.mp hrest).2
  rcases writei_accept src hready (h.noHoles_of_ready hready hdev) hdev (by omega) hmax with
    ⟨fs', hwrite, hwrote⟩ | ⟨hfull, -⟩
  · exact .inr (.inl ⟨fs', hwrite, hwrote, by omega, hmax⟩)
  · exact .inr (.inr hfull)

theorem writei_effect {src : ℕ → UInt8} {off n : UInt32} {r : ℤ} (h : fs.Inv) (href : 0 < (fs.icache ip).ref)
    (hvalid : (fs.icache ip).valid = true) (hok : writei fs ip src off n = .ok (r, fs')) :
    fs.Effect fs' ∧ fs'.Cached := by
  have hready := h.ready href hvalid
  rcases writei_outcome h hready src off n with ⟨r', hsame⟩ | ⟨fs₁, hwrite, hwrote, hoff, hmax⟩ | hfull
  · rw [hsame] at hok
    cases hok
    exact ⟨.refl h.owned, h.cached⟩
  · rw [hwrite] at hok
    cases hok
    refine ⟨Fs.effect_of_wrote hready hwrote hoff hmax, ?_⟩
    refine h.cached.store href hwrote.sb hwrote.others hwrote.node hwrote.table ?_
    rw [hwrote.din]
    exact (h.cached.coherent ip href hvalid).2
  · rw [hfull] at hok
    cases hok

theorem itrunc_effect (h : fs.Inv) (href : 0 < (fs.icache ip).ref) (hvalid : (fs.icache ip).valid = true)
    (hok : itrunc fs ip = .ok fs') : fs.Effect fs' ∧ fs'.Cached := by
  obtain ⟨fs₁, htrunc, htruncated⟩ := itrunc_spec (h.ready href hvalid) h.sblock
  rw [htrunc] at hok
  cases hok
  refine ⟨Fs.effect_of_truncated htruncated, ?_⟩
  refine h.cached.store href htruncated.sb htruncated.others htruncated.node htruncated.table ?_
  rw [htruncated.din]
  exact (h.cached.coherent ip href hvalid).2

/-- What `iput` does when it frees the inode: its blocks are released and its type is zero. -/
structure Freed (fs fs' : Fs) (ip : Fin NINODE) : Prop where
  owned : fs'.image.Owned
  sb : fs'.sb = fs.sb
  sblock : fs'.disk 1 = fs.disk 1
  others : ∀ jp ≠ ip, fs'.icache jp = fs.icache jp
  table : fs'.table = update fs.table (fs.inum ip) { Dinode.zero with
    major := (fs.din ip).major, minor := (fs.din ip).minor, nlink := (fs.din ip).nlink }
  own : ∀ s, fs'.image.own s = if s.1 = fs.inum ip then 0 else fs.image.own s
  logged : fs'.logged = fs.logged ++ (fs.image.blocksOf (fs.inum ip)).map (BBLOCK · fs.sb) ++
    [IBLOCK (fs.inum ip) fs.sb, IBLOCK (fs.inum ip) fs.sb]

/-- Storing type zero in a truncated inode frees it. -/
theorem Truncated.freed (h : Truncated fs fs₁ ip) :
    Freed fs (iupdate (fs₁.setDin ip { fs₁.din ip with type := 0 }) ip) ip := by
  obtain ⟨fs₂, hfs₂⟩ : ∃ fs₂, fs₂ = fs₁.setDin ip { fs₁.din ip with type := 0 } := ⟨_, rfl⟩
  have hsb : fs₂.sb = fs.sb := by rw [hfs₂, ← h.sb]; rfl
  have himage : fs₂.image = fs₁.image := by rw [hfs₂]; rfl
  have hinum₁ : fs₁.inum ip = fs.inum ip := by rw [Fs.inum, h.node]; rfl
  have hinum : fs₂.inum ip = fs.inum ip := by rw [hfs₂, Fs.setDin_inum, hinum₁]
  have hdin : fs₂.din ip = { Dinode.zero with
      major := (fs.din ip).major, minor := (fs.din ip).minor, nlink := (fs.din ip).nlink } := by
    rw [hfs₂, Fs.setDin_din, h.din]
    rfl
  have hlt : fs₂.inum ip < fs₂.sb.ninodes := by
    rw [hinum, hsb, ← h.sb, ← hinum₁]
    exact h.ready.live.1
  have hzero : ∀ k, (fs₂.din ip).addr k = 0 := by simp [hdin, Dinode.addr, Dinode.zero]
  have hempty : ∀ k, fs₂.image.own (fs₂.inum ip, k) = 0 := fun k => by rw [himage, hinum, h.own, if_pos rfl]
  have howned : fs₂.image.Owned := by rw [himage]; exact h.ready.owned
  rw [← hfs₂, Fs.iupdate_eq]
  refine ⟨Fs.owned_storeDinode howned hlt hzero hempty, hsb, ?_, ?_, ?_, ?_, ?_⟩
  · rw [Fs.sblock_storeDinode howned.layout, ← h.sblock, hfs₂]
    rfl
  · intro jp hjp
    rw [hfs₂, ← h.others jp hjp]
    exact update_of_ne hjp _ _
  · rw [Fs.table_storeDinode hlt, hinum, hdin, show fs₂.table = fs₁.table by rw [hfs₂]; rfl, h.table,
      update_idem]
  · intro s
    rw [Fs.own_storeDinode howned hlt hzero hempty, himage, h.own]
  · change fs₂.logged ++ [IBLOCK (fs₂.inum ip) fs₂.sb] = _
    rw [hinum, hsb, show fs₂.logged = fs₁.logged by rw [hfs₂]; rfl, h.logged, List.append_assoc]
    rfl

/-- Flags and counts of the entry that held the inode do not matter. -/
theorem Freed.setInode {node node' : Inode} (h : Freed (fs.setInode ip node) fs₁ ip)
    (hinum : node.inum = fs.inum ip) (hdin : node.din = fs.din ip) : Freed fs (fs₁.setInode ip node') ip := by
  have hself : (fs.setInode ip node).inum ip = fs.inum ip := by rw [Fs.inum, Fs.setInode_icache, hinum]
  have hself' : (fs.setInode ip node).din ip = fs.din ip := by rw [Fs.din, Fs.setInode_icache, hdin]
  have himage : (fs.setInode ip node).image = fs.image := rfl
  refine ⟨h.owned, h.sb, h.sblock, ?_, ?_, ?_, ?_⟩
  · intro jp hjp
    have hjp' := h.others jp hjp
    simp only [Fs.setInode, update_of_ne hjp] at hjp' ⊢
    exact hjp'
  · have htable := h.table
    rw [hself, hself'] at htable
    exact htable
  · have hown := h.own
    rw [hself, himage] at hown
    exact hown
  · have hlogged := h.logged
    rw [hself, himage] at hlogged
    exact hlogged

/-- `iput` frees an inode without links when its last reference is dropped. -/
theorem iput_free (h : fs.Ready ip) (hsb : readsb (fs.disk 1) = fs.sb) (href : (fs.icache ip).ref = 1)
    (hvalid : (fs.icache ip).valid = true) (hnlink : (fs.din ip).nlink = 0) (hbusy : (fs.icache ip).busy = false) :
    ∃ fs', iput fs ip = .ok fs' ∧ Freed fs fs' ip ∧ (fs'.icache ip).ref = 0 := by
  obtain ⟨fs₁, hfs₁⟩ : ∃ fs₁, fs₁ = fs.setInode ip { fs.icache ip with busy := true } := ⟨_, rfl⟩
  have hinum : fs₁.inum ip = fs.inum ip := by rw [hfs₁, Fs.inum, Fs.setInode_icache]; rfl
  have hdin : fs₁.din ip = fs.din ip := by rw [hfs₁, Fs.din, Fs.setInode_icache]; rfl
  have himage : fs₁.image = fs.image := by rw [hfs₁]; rfl
  have hready : fs₁.Ready ip := by
    refine ⟨by rw [himage]; exact h.owned, by rw [himage, hinum]; exact h.live, ?_⟩
    rw [hinum, hdin, ← h.coherent, hfs₁]
    rfl
  obtain ⟨fs₂, htrunc, ht⟩ := itrunc_spec hready (by rw [hfs₁]; exact hsb)
  have hfreed := ht.freed
  obtain ⟨fs₃, hfs₃⟩ : ∃ fs₃, fs₃ = iupdate (fs₂.setDin ip { fs₂.din ip with type := 0 }) ip := ⟨_, rfl⟩
  rw [← hfs₃, hfs₁] at hfreed
  have hthree : (fs₃.icache ip).ref = 1 := by
    rw [hfs₃]
    change ((fs₂.setDin ip _).icache ip).ref = 1
    rw [Fs.setDin, Fs.setInode_icache]
    rw [ht.node, hfs₁, Fs.setInode_icache]
    exact href
  refine ⟨fs₃.setInode ip { fs₃.icache ip with
    busy := false, valid := false, ref := (fs₃.icache ip).ref - 1 }, ?_, hfreed.setInode rfl rfl, ?_⟩
  · rw [iput]
    rw [if_pos ⟨href, hvalid, hnlink⟩, hbusy, if_neg (by decide), ← hbusy, ← hfs₁, htrunc, ok_bind, ← hfs₃]
  · rw [Fs.setInode_icache]
    rw [hthree]
    rfl

variable (h : fs.Inv)

include h

variable (href : 0 < (fs.icache ip).ref)

include href

theorem iput_effect (hok : iput fs ip = .ok fs') : fs.Effect fs' ∧ fs'.Cached := by
  by_cases hfree : (fs.icache ip).ref = 1 ∧ (fs.icache ip).valid ∧ (fs.icache ip).din.nlink = 0
  · obtain ⟨hone, hvalid, hnlink⟩ := hfree
    by_cases hbusy : (fs.icache ip).busy = true
    · rw [iput] at hok
      rw [if_pos ⟨hone, hvalid, hnlink⟩, if_pos hbusy] at hok
      cases hok
    obtain ⟨fs₁, hput, hfreed, hzero⟩ :=
      iput_free (h.ready href hvalid) h.sblock hone hvalid hnlink (by simpa using hbusy)
    rw [hput] at hok
    rw [← Except.ok.inj hok]
    refine ⟨.of_cleared hfreed.owned hfreed.sb hfreed.sblock hfreed.table rfl hfreed.own, ?_⟩
    have hnone : ∀ P : Prop, 0 < (fs₁.icache ip).ref → P := fun P hpos => by omega
    refine h.cached.of_entry hfreed.sb ip hfreed.others ?_ (hnone _) (hnone _) (hnone _)
    intro jp hjp hj _
    have hne : fs.inum jp ≠ fs.inum ip := fun heq => hjp (h.cached.unique jp ip hj href heq)
    rw [hfreed.table, update_of_ne hne]
  · rw [iput_keep hfree] at hok
    cases hok
    exact ⟨(Fs.Effect.refl h.owned).trans_disk rfl rfl, h.cached.retain href _ _ _ id⟩

omit href in
theorem ilock_effect (hok : ilock fs ip = .ok fs') : fs.Effect fs' ∧ fs'.Cached := by
  unfold ilock at hok
  dsimp only at hok
  split at hok
  · cases hok
  next href =>
  have hpos : 0 < (fs.icache ip).ref := by omega
  split at hok
  · cases hok
    exact ⟨(Fs.Effect.refl h.owned).trans_disk rfl rfl, h.cached.retain hpos _ _ _ id⟩
  split at hok
  · cases hok
  next htype =>
  cases hok
  refine ⟨(Fs.Effect.refl h.owned).trans_disk rfl rfl, ?_⟩
  apply h.cached.setInode
  · exact fun _ => h.cached.range ip hpos
  · exact fun _ jp hjp hj heq => hjp (h.cached.unique jp ip hj hpos heq)
  · exact fun _ _ => ⟨if_pos (h.cached.range ip hpos), htype⟩

omit href in
theorem iunlock_effect (hok : iunlock fs ip = .ok fs') : fs.Effect fs' ∧ fs'.Cached := by
  unfold iunlock at hok
  dsimp only at hok
  split at hok
  · cases hok
  · next hbusy =>
    cases hok
    simp only [Bool.or_eq_true, Bool.not_eq_true', decide_eq_true_eq, not_or, Int.not_lt] at hbusy
    exact ⟨(Fs.Effect.refl h.owned).trans_disk rfl rfl, h.cached.retain (by omega) _ _ _ id⟩

theorem idup_effect : fs.Effect (idup fs ip) ∧ (idup fs ip).Cached :=
  ⟨(Fs.Effect.refl h.owned).trans_disk rfl rfl, h.cached.retain href _ _ _ id⟩

/-- Flushing an inode of which neither type, size nor addresses changed. -/
theorem flush_effect {d : Dinode} (hvalid : (fs.icache ip).valid = true) (htype : d.type = (fs.din ip).type)
    (hsize : d.size = (fs.din ip).size) (haddrs : d.addrs = (fs.din ip).addrs) :
    fs.Effect (iupdate (fs.setDin ip d) ip) ∧ (iupdate (fs.setDin ip d) ip).Cached := by
  obtain ⟨hcoherent, hne⟩ := h.cached.coherent ip href hvalid
  have hlt := h.cached.range ip href
  have hupdate : iupdate (fs.setDin ip d) ip = (fs.setDin ip d).storeDinode (fs.inum ip) d := by
    rw [Fs.iupdate_eq, Fs.setDin_inum, Fs.setDin_din]
  have hdin : (iupdate (fs.setDin ip d) ip).din ip = d := Fs.setDin_din _ _ _
  constructor
  · have heffect := Fs.effect_storeDinode h.owned hlt (htype.trans (by rw [hcoherent]))
      (hsize.trans (by rw [hcoherent])) (haddrs.trans (by rw [hcoherent]))
    rw [hupdate]
    exact heffect.trans_disk rfl rfl
  refine h.cached.store href rfl (fun jp hjp => update_of_ne hjp _ _) ?_ ?_ ?_
  · rw [hdin]
    exact update_self _ _ _
  · rw [hdin, hupdate]
    exact (fs.setDin ip d).table_logWrite_putDinode hlt d
  · rw [hdin, htype]
    exact hne

theorem dirlink_effect {name : ℕ → UInt8} {r : ℤ} (hvalid : (fs.icache ip).valid = true)
    (hok : dirlink fs ip name inum = .ok (r, fs')) : fs.Effect fs' ∧ fs'.Cached := by
  rcases dirlink_cases (readOnly_of_inv h (h.ready href hvalid)) name inum with
    ⟨e, -, hfail⟩ | ⟨found, jp, fs₁, hget, hfound⟩ | ⟨off, hwrite⟩
  · rw [hfail] at hok
    cases hok
  · -- the name is present: the reference taken by the lookup is dropped
    rw [hfound] at hok
    obtain ⟨fs₂, hput, hend⟩ := bind_eq_ok.mp hok
    cases hend
    rcases iget_iput hget with hsame | ⟨node, hzero, hunused⟩
    · rw [← Except.ok.inj (hsame.symm.trans hput)]
      exact ⟨.refl h.owned, h.cached⟩
    · rw [← Except.ok.inj (hunused.symm.trans hput)]
      have hnone : ∀ P : Prop, 0 < node.ref → P := fun P hpos => by omega
      exact ⟨(Fs.Effect.refl h.owned).trans_disk rfl rfl, h.cached.setInode _ _ (hnone _) (hnone _) (hnone _)⟩
  · rw [hwrite] at hok
    obtain ⟨⟨r', fs₂⟩, hwritten, hend⟩ := bind_eq_ok.mp hok
    dsimp only at hend
    split at hend
    · cases hend
    · cases hend
      exact writei_effect h href hvalid hwritten

end Calls

/-- The operations on inodes. -/
inductive Op
  | ialloc (type : Int16)
  | iget (inum : ℕ)
  | idup (ip : Fin NINODE)
  | ilock (ip : Fin NINODE)
  | iunlock (ip : Fin NINODE)
  | iput (ip : Fin NINODE)
  | readi (ip : Fin NINODE) (off n : UInt32)
  | writei (ip : Fin NINODE) (src : ℕ → UInt8) (off n : UInt32)
  | itrunc (ip : Fin NINODE)
  | dirlink (dp : Fin NINODE) (name : ℕ → UInt8) (inum : ℕ)
  /-- `ip->nlink++; iupdate(ip);` in `sys_link` and `create` -/
  | link (ip : Fin NINODE)
  /-- `ip->nlink--; iupdate(ip);` in `sys_link` and `sys_unlink` -/
  | unlink (ip : Fin NINODE)
  /-- `ip->major = major; ip->minor = minor; ip->nlink = 1; iupdate(ip);` in `create` -/
  | init (ip : Fin NINODE) (major minor : Int16)

/-- What the callers see to: inode numbers are in range, `idup` and `iput` are called with a
reference, `ilock` returns once the inode is not busy, and contents and fields are used under the
lock. -/
def Op.enabled (fs : Fs) : Op → Prop
  | .ialloc type => type ≠ 0
  | .iget inum => inum < fs.sb.ninodes
  | .idup ip | .iput ip => 0 < (fs.icache ip).ref
  | .ilock ip => (fs.icache ip).busy = false
  | .iunlock _ => True
  | .readi ip _ _ | .writei ip _ _ _ | .itrunc ip | .dirlink ip _ _ | .link ip | .unlink ip | .init ip _ _ =>
    0 < (fs.icache ip).ref ∧ (fs.icache ip).busy = true ∧ (fs.icache ip).valid = true

instance (fs : Fs) (op : Op) : Decidable (op.enabled fs) := by
  cases op <;> dsimp only [Op.enabled] <;> infer_instance

/-- Run an operation. -/
def Op.exec (fs : Fs) : Op → Except Panic Fs
  | .ialloc type => do let (_, fs) ← Xv6.ialloc fs type; .ok fs
  | .iget inum => do let (_, fs) ← Xv6.iget fs inum; .ok fs
  | .idup ip => .ok (Xv6.idup fs ip)
  | .ilock ip => Xv6.ilock fs ip
  | .iunlock ip => Xv6.iunlock fs ip
  | .iput ip => Xv6.iput fs ip
  | .readi ip off n => do let (_, fs) ← Xv6.readi fs ip off n; .ok fs
  | .writei ip src off n => do let (_, fs) ← Xv6.writei fs ip src off n; .ok fs
  | .itrunc ip => Xv6.itrunc fs ip
  | .dirlink dp name inum => do let (_, fs) ← Xv6.dirlink fs dp name inum; .ok fs
  | .link ip => .ok (iupdate (fs.setDin ip { fs.din ip with nlink := (fs.din ip).nlink + 1 }) ip)
  | .unlink ip => .ok (iupdate (fs.setDin ip { fs.din ip with nlink := (fs.din ip).nlink - 1 }) ip)
  | .init ip major minor =>
    .ok (iupdate (fs.setDin ip { fs.din ip with major := major, minor := minor, nlink := 1 }) ip)

/-- Take an operation, if it is enabled. -/
def Fs.step (fs : Fs) (op : Op) : Option (Except Panic Fs) :=
  if op.enabled fs then some (op.exec fs) else none

variable {fs fs' : Fs} {op : Op}

theorem Fs.step_eq {result : Except Panic Fs} : fs.step op = some result ↔ op.enabled fs ∧ op.exec fs = result := by
  unfold Fs.step
  split
  · next h => simp [h]
  · next h => simp [h]

/-- What a completed operation does. -/
theorem Op.effect (h : fs.Inv) (henabled : op.enabled fs) (hok : op.exec fs = .ok fs') :
    fs.Effect fs' ∧ fs'.Cached := by
  cases op with
  | ialloc type =>
    obtain ⟨⟨ip, fs₁⟩, halloc, hend⟩ := bind_eq_ok.mp hok
    cases hend
    exact ialloc_effect h halloc
  | iget inum =>
    obtain ⟨⟨ip, fs₁⟩, hget, hend⟩ := bind_eq_ok.mp hok
    cases hend
    obtain ⟨hsb, hdisk⟩ := iget_disk hget
    exact ⟨(Fs.Effect.refl h.owned).trans_disk hsb hdisk, iget_cached h.cached henabled hget⟩
  | idup ip =>
    cases hok
    exact idup_effect h henabled
  | ilock ip => exact ilock_effect h hok
  | iunlock ip => exact iunlock_effect h hok
  | iput ip => exact iput_effect h henabled hok
  | readi ip off n =>
    obtain ⟨result, hread⟩ := readOnly_of_inv h (h.ready henabled.1 henabled.2.2) off n
    rw [Op.exec, hread] at hok
    cases hok
    exact ⟨.refl h.owned, h.cached⟩
  | writei ip src off n =>
    obtain ⟨⟨r, fs₁⟩, hwrite, hend⟩ := bind_eq_ok.mp hok
    cases hend
    exact writei_effect h henabled.1 henabled.2.2 hwrite
  | itrunc ip => exact itrunc_effect h henabled.1 henabled.2.2 hok
  | dirlink dp name inum =>
    obtain ⟨⟨r, fs₁⟩, hlink, hend⟩ := bind_eq_ok.mp hok
    cases hend
    exact dirlink_effect h henabled.1 henabled.2.2 hlink
  | link ip | unlink ip | init ip major minor =>
    cases hok
    exact flush_effect h henabled.1 henabled.2.2 rfl rfl rfl

/-- Every operation keeps the invariant. -/
theorem Fs.Inv.step (h : fs.Inv) (hstep : fs.step op = some (.ok fs')) : fs'.Inv := by
  obtain ⟨henabled, hok⟩ := Fs.step_eq.mp hstep
  obtain ⟨heffect, hcached⟩ := op.effect h henabled hok
  exact h.effect heffect hcached

/-- Every run keeps the invariant. -/
theorem Fs.Inv.run {trace : List Op} (h : fs.Inv) (hrun : Run Fs.step fs trace fs') : fs'.Inv :=
  hrun.invariant (P := fun _ fs => fs.Inv) h fun _ _ _ _ _ hinv hstep => hinv.step hstep

/-- The panics an operation can end in. -/
def Op.panics : Op → List Panic
  | .ialloc _ => ["ialloc: no inodes", "iget: no inodes"]
  | .iget _ => ["iget: no inodes"]
  | .ilock _ => ["ilock", "ilock: no type"]
  | .iunlock _ => ["iunlock"]
  | .iput _ => ["iput busy"]
  | .writei _ _ _ _ => ["balloc: out of blocks"]
  | .dirlink _ _ _ =>
    ["dirlookup not DIR", "dirlink read", "iget: no inodes", "balloc: out of blocks", "dirlink"]
  | .idup _ | .readi _ _ _ | .itrunc _ | .link _ | .unlink _ | .init _ _ _ => []

attribute [local simp] Op.panics

section Panics

variable {fs : Fs} {ip : Fin NINODE} {e : Panic}

theorem writei_panic {src : ℕ → UInt8} {off n : UInt32} (h : fs.Inv) (hready : fs.Ready ip)
    (herror : writei fs ip src off n = .error e) : e = "balloc: out of blocks" := by
  rcases writei_outcome h hready src off n with ⟨r, hsame⟩ | ⟨fs₁, hwrite, -⟩ | hfull
  · rw [hsame] at herror
    cases herror
  · rw [hwrite] at herror
    cases herror
  · exact (Except.error.inj (hfull.symm.trans herror)).symm

theorem ilock_panic (herror : ilock fs ip = .error e) : e ∈ ["ilock", "ilock: no type"] := by
  unfold ilock at herror
  dsimp only at herror
  split at herror
  · simp [← Except.error.inj herror]
  split at herror
  · cases herror
  · split at herror
    · simp [← Except.error.inj herror]
    · cases herror

theorem iput_panic (h : fs.Inv) (href : 0 < (fs.icache ip).ref) (herror : iput fs ip = .error e) :
    e = "iput busy" := by
  by_cases hfree : (fs.icache ip).ref = 1 ∧ (fs.icache ip).valid ∧ (fs.icache ip).din.nlink = 0
  · obtain ⟨hone, hvalid, hnlink⟩ := hfree
    by_cases hbusy : (fs.icache ip).busy = true
    · rw [iput] at herror
      rw [if_pos ⟨hone, hvalid, hnlink⟩, if_pos hbusy] at herror
      exact (Except.error.inj herror).symm
    · obtain ⟨fs', hput, -⟩ := iput_free (h.ready href hvalid) h.sblock hone hvalid hnlink (by simpa using hbusy)
      rw [hput] at herror
      cases herror
  · rw [iput_keep hfree] at herror
    cases herror

theorem dirlink_panic {name : ℕ → UInt8} {inum : ℕ} (h : fs.Inv) (hready : fs.Ready ip)
    (herror : dirlink fs ip name inum = .error e) : e ∈ (Op.dirlink ip name inum).panics := by
  rcases dirlink_cases (readOnly_of_inv h hready) name inum with
    ⟨e', he', hfail⟩ | ⟨found, jp, fs₁, hget, hfound⟩ | ⟨off, hwrite⟩
  · rw [← Except.error.inj (hfail.symm.trans herror)]
    exact List.mem_append_left ["balloc: out of blocks", "dirlink"] he'
  · rw [hfound] at herror
    rcases iget_iput hget with hput | ⟨node, -, hput⟩
    · rw [hput] at herror
      cases herror
    · rw [hput] at herror
      cases herror
  rw [hwrite] at herror
  rcases bind_eq_error.mp herror with hfull | ⟨⟨r, fs₁⟩, -, hshort⟩
  · rw [writei_panic h hready hfull]
    simp
  · dsimp only at hshort
    split at hshort
    · simp [← Except.error.inj hshort]
    · cases hshort

/-- The panics of an operation called as its callers call it. In particular no block is freed that
is free already. -/
theorem Op.exec_panic {op : Op} (h : fs.Inv) (henabled : op.enabled fs) (herror : op.exec fs = .error e) :
    e ∈ op.panics := by
  cases op with
  | ialloc type =>
    rcases bind_eq_error.mp herror with halloc | ⟨_, -, hend⟩
    · unfold Xv6.ialloc at halloc
      split at halloc
      · simp [iget_error halloc]
      · simp [← Except.error.inj halloc]
    · cases hend
  | iget inum =>
    rcases bind_eq_error.mp herror with hget | ⟨_, -, hend⟩
    · simp [iget_error hget]
    · cases hend
  | ilock ip => exact ilock_panic herror
  | iunlock ip =>
    simp only [Op.exec, Xv6.iunlock] at herror
    split at herror
    · simp [← Except.error.inj herror]
    · cases herror
  | iput ip => simp [iput_panic h henabled herror]
  | readi ip off n =>
    obtain ⟨result, hread⟩ := readOnly_of_inv h (h.ready henabled.1 henabled.2.2) off n
    rw [Op.exec, hread] at herror
    cases herror
  | writei ip src off n =>
    rcases bind_eq_error.mp herror with hwrite | ⟨_, -, hend⟩
    · simp [writei_panic h (h.ready henabled.1 henabled.2.2) hwrite]
    · cases hend
  | itrunc ip =>
    obtain ⟨fs', htrunc, -⟩ := itrunc_spec (h.ready henabled.1 henabled.2.2) h.sblock
    rw [Op.exec, htrunc] at herror
    cases herror
  | dirlink dp name inum =>
    rcases bind_eq_error.mp herror with hlink | ⟨_, -, hend⟩
    · exact dirlink_panic h (h.ready henabled.1 henabled.2.2) hlink
    · cases hend
  | idup ip | link ip | unlink ip | init ip major minor => cases herror

end Panics

end Xv6
