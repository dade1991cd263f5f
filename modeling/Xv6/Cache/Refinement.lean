import Xv6.Cache.Model

/-!
# The buffer cache refines the disk

Every buffer is in the list exactly once, and no block is in two buffers. A valid buffer that is not being changed
has what was last written to its block, and a block that differs on the disk is in a dirty buffer, which `bget` does
not recycle. The variables of `commit` refer to buffers that its process holds.
-/

namespace Xv6

open Lib
open Function (update update_self update_of_ne update_eq_self)

attribute [local simp] Clients.goto Clients.assign Clients.init

namespace Cache

variable {B : Type} [DecidableEq B] {c c' : Cache B} {b : B} {dev blockno : ℕ}

/-- The links form one circular list through the head, with each buffer exactly once. -/
def Ordered (c : Cache B) : Prop := ∃ order : List B, c.links.Linked order ∧ order.Nodup ∧ ∀ b, b ∈ order

/-- The buffer is for this block. -/
def Holds (c : Cache B) (dev blockno : ℕ) (b : B) : Prop := (c.bufs b).dev = dev ∧ (c.bufs b).blockno = blockno

instance : Decidable (c.Holds dev blockno b) := inferInstanceAs (Decidable (_ ∧ _))

@[simp] theorem setBuf_self (buf : Buf) : (c.setBuf b buf).bufs b = buf := update_self ..

@[simp] theorem setBuf_of_ne {b' : B} (h : b' ≠ b) (buf : Buf) : (c.setBuf b buf).bufs b' = c.bufs b' :=
  update_of_ne h ..

theorem holds_setBuf_of_ne {b' : B} (h : b' ≠ b) (buf : Buf) :
    (c.setBuf b buf).Holds dev blockno b' ↔ c.Holds dev blockno b' := by
  rw [Holds, Holds, setBuf_of_ne h]

/-- A changed buffer is still for the same block. -/
theorem holds_setBuf {buf : Buf} (hdev : buf.dev = (c.bufs b).dev) (hblockno : buf.blockno = (c.bufs b).blockno)
    (b' : B) : (c.setBuf b buf).Holds dev blockno b' ↔ c.Holds dev blockno b' := by
  by_cases hb : b' = b
  · rw [hb, Holds, Holds, setBuf_self, hdev, hblockno]
  · exact holds_setBuf_of_ne hb buf

/-- A buffer that `bget` gives to another block. -/
def recycled (c : Cache B) (dev blockno : ℕ) (b : B) : Buf :=
  { c.bufs b with dev := dev, blockno := blockno, busy := true, valid := false, dirty := false }

/-- What `bget` can come to. -/
inductive Gets (c : Cache B) (dev blockno : ℕ) : Except Panic (Got B) → Prop
  | hit (b : B) (hholds : c.Holds dev blockno b) (hfree : (c.bufs b).busy = false) :
      Gets c dev blockno (.ok (.got (c.setBuf b { c.bufs b with busy := true }) b))
  | wait (b : B) (hholds : c.Holds dev blockno b) (hbusy : (c.bufs b).busy = true) :
      Gets c dev blockno (.ok (.wait b))
  | recycle (b : B) (hmiss : ∀ b', ¬ c.Holds dev blockno b') (hfree : (c.bufs b).busy = false)
      (hclean : (c.bufs b).dirty = false) :
      Gets c dev blockno (.ok (.got (c.setBuf b (c.recycled dev blockno b)) b))
  | full (hmiss : ∀ b', ¬ c.Holds dev blockno b')
      (hfull : ∀ b', (c.bufs b').busy = true ∨ (c.bufs b').dirty = true) :
      Gets c dev blockno (.error "bget: no buffers")

/-- The two loops of `bget` end, having seen every buffer. -/
theorem Ordered.bget [Fintype B] (h : c.Ordered) (dev blockno : ℕ) :
    ∃ r, c.bget dev blockno = some r ∧ Gets c dev blockno r := by
  obtain ⟨order, hlinked, hnodup, hall⟩ := h
  have hfuel : order.length < Fintype.card B + 1 := Nat.lt_succ_of_le hnodup.length_le_card
  unfold Cache.bget
  rw [hlinked.scan_next hfuel]
  cases hfind : order.find? fun b => decide ((c.bufs b).dev = dev ∧ (c.bufs b).blockno = blockno) with
  | some b =>
    have hholds : c.Holds dev blockno b := by simpa [Holds] using List.find?_some hfind
    simp only [Option.bind_some]
    split
    · next hfree => exact ⟨_, rfl, .hit b hholds hfree⟩
    · next hbusy => exact ⟨_, rfl, .wait b hholds (by simpa using hbusy)⟩
  | none =>
    have hmiss : ∀ b', ¬ c.Holds dev blockno b' := fun b' hholds =>
      List.find?_eq_none.mp hfind b' (hall b') (decide_eq_true hholds)
    rw [hlinked.scan_prev hfuel]
    cases hclean : order.reverse.find? fun b => decide ((c.bufs b).busy = false ∧ (c.bufs b).dirty = false) with
    | some b =>
      have hb : (c.bufs b).busy = false ∧ (c.bufs b).dirty = false := by simpa using List.find?_some hclean
      exact ⟨_, rfl, .recycle b hmiss hb.1 hb.2⟩
    | none =>
      refine ⟨_, rfl, .full hmiss fun b' => ?_⟩
      have hb' := List.find?_eq_none.mp hclean b' (List.mem_reverse.mpr (hall b'))
      cases hbusy : (c.bufs b').busy with
      | true => exact .inl rfl
      | false => exact .inr (by simpa [hbusy] using hb')

theorem brelse_ok (h : c.brelse b = .ok c') :
    c' = { (c.setBuf b { c.bufs b with busy := false }) with links := (c.links.unlink b).insert b } := by
  unfold Cache.brelse at h
  split at h
  · cases h
  · exact (Except.ok.inj h).symm

/-- A released buffer is moved to the front of the list. -/
theorem Ordered.brelse (h : c.Ordered) (hrelease : c.brelse b = .ok c') : c'.Ordered := by
  obtain rfl := brelse_ok hrelease
  obtain ⟨order, hlinked, hnodup, hall⟩ := h
  obtain ⟨l₁, l₂, rfl⟩ := List.append_of_mem (hall b)
  have hperm : (l₁ ++ b :: l₂).Perm (b :: (l₁ ++ l₂)) := List.perm_middle
  have hnodup' : (b :: (l₁ ++ l₂)).Nodup := hperm.nodup_iff.mp hnodup
  obtain ⟨hb, hrest⟩ := List.nodup_cons.mp hnodup'
  exact ⟨b :: (l₁ ++ l₂), (hlinked.unlink hnodup).insert hrest hb, hnodup', fun b' => hperm.mem_iff.mp (hall b')⟩

variable {bufs : List B}

/-- `binit` makes a list of the buffers it is given, the last one first. -/
theorem binit_linked (hnodup : bufs.Nodup) : (binit bufs).links.Linked bufs.reverse := by
  induction bufs using List.reverseRecOn with
  | nil => exact Links.linked_empty
  | append_singleton rest b ih =>
    obtain ⟨hrest, -, hdisjoint⟩ := List.nodup_append.mp hnodup
    have hb : b ∉ rest.reverse := fun hmem => hdisjoint b (List.mem_reverse.mp hmem) b (by simp) rfl
    simp only [binit, List.foldl_append, List.foldl_cons, List.foldl_nil, List.reverse_append, List.reverse_singleton,
      List.singleton_append]
    exact (ih hrest).insert (List.nodup_reverse.mpr hrest) hb

/-- The buffers of a new cache hold no block. -/
theorem binit_bufs (hb : b ∈ bufs) : (binit bufs).bufs b = ⟨false, false, false, NODEV, 0, fun _ => 0⟩ := by
  have hflags : ∀ l : List B, ∀ b', ∃ dev, (binit l).bufs b' = ⟨false, false, false, dev, 0, fun _ => 0⟩ ∧
      (b' ∈ l → dev = NODEV) := by
    intro l
    induction l using List.reverseRecOn with
    | nil => exact fun b' => ⟨0, rfl, nofun⟩
    | append_singleton rest x ih =>
      intro b'
      obtain ⟨dev, hbuf, hdev⟩ := ih b'
      simp only [binit, List.foldl_append, List.foldl_cons, List.foldl_nil, setBuf] at hbuf ⊢
      by_cases hx : b' = x
      · subst hx
        exact ⟨NODEV, by rw [update_self, hbuf], fun _ => rfl⟩
      · refine ⟨dev, by rw [update_of_ne hx, hbuf], fun hmem => hdev ?_⟩
        simpa [hx] using hmem
  obtain ⟨dev, hbuf, hdev⟩ := hflags bufs b
  rw [hbuf, hdev hb]

theorem binit_ordered (hnodup : bufs.Nodup) (hall : ∀ b, b ∈ bufs) : (binit bufs).Ordered :=
  ⟨bufs.reverse, binit_linked hnodup, List.nodup_reverse.mpr hnodup, fun b => List.mem_reverse.mpr (hall b)⟩

end Cache

namespace Stmt

/-- The statements use a variable only while it has a buffer; `held` says which variables have one at first. -/
def Proper (held : Bool → Bool) : List Stmt → Prop
  | [] => True
  | .bread dst _ :: rest => Proper (update held dst true) rest
  | .copy dst src :: rest => held dst = true ∧ held src = true ∧ Proper held rest
  | .head buf :: rest => held buf = true ∧ Proper held rest
  | .brelse buf :: rest => held buf = true ∧ Proper (update held buf false) rest
  | .clear :: rest | .finish :: rest => Proper held rest

variable {rest : List Stmt}

/-- Rounds that release what they read may be repeated. -/
theorem Proper.flatMap {A : Type} {round : A → List Stmt}
    (hround : ∀ x rest, Proper (fun _ => false) rest → Proper (fun _ => false) (round x ++ rest)) (l : List A)
    (h : Proper (fun _ => false) rest) : Proper (fun _ => false) (l.flatMap round ++ rest) := by
  induction l with
  | nil => exact h
  | cons x l ih =>
    rw [List.flatMap_cons, List.append_assoc]
    exact hround x _ ih

theorem proper_writeHead {log : Log} (h : Proper (fun _ => false) rest) :
    Proper (fun _ => false) (log.writeHeadStmts ++ rest) := by
  have hheld : update (update (fun _ => false) false true) false false = fun _ : Bool => false := by
    funext r
    cases r <;> rfl
  simp only [Log.writeHeadStmts, List.cons_append, List.nil_append, Proper, hheld]
  exact ⟨rfl, rfl, h⟩

/-- `commit` and the rest of `end_op` are proper. -/
theorem proper_endOp (log : Log) : Proper (fun _ => false) log.endOpStmts := by
  have hfinish : Proper (fun _ => false) [Stmt.finish] := trivial
  unfold Log.endOpStmts Log.commitStmts
  split
  · simp only [List.append_assoc]
    apply Proper.flatMap
    · intro x rest h
      refine ⟨rfl, rfl, rfl, rfl, ?_⟩
      change Proper _ rest
      convert h using 2 with r
      cases r <;> rfl
    apply proper_writeHead
    apply Proper.flatMap
    · intro x rest h
      refine ⟨rfl, rfl, rfl, rfl, ?_⟩
      change Proper _ rest
      convert h using 2 with r
      cases r <;> rfl
    · change Proper _ (log.writeHeadStmts ++ [.finish])
      exact proper_writeHead hfinish
  · exact hfinish

end Stmt

namespace Clients

variable {P B : Type} {s s' : Clients P B} {p q : P} {b b' : B} {dev n : ℕ} {dst : Option Bool} {data : Block}

/-- A dirty buffer keeps the block in the cache. -/
def Pinned (s : Clients P B) (n : ℕ) : Prop := ∃ b, s.cache.Holds ROOTDEV n b ∧ (s.cache.bufs b).dirty = true

/-- The cache and the disk together have what was last written. -/
structure Coherent (s : Clients P B) : Prop where
  ordered : s.cache.Ordered
  /-- No block is in two buffers. -/
  unique : ∀ dev n b b', dev ≠ Cache.NODEV → s.cache.Holds dev n b → s.cache.Holds dev n b' → b' = b
  owned : ∀ b, (s.cache.bufs b).busy = (s.owner b).isSome
  saved : ∀ b, s.owner b = none → s.unsaved b = false
  /-- A buffer is valid once its `bread` has returned. -/
  ready : ∀ b p, s.owner b = some p → (s.cache.bufs b).valid = false →
    ∃ dev n dst, s.calls p = some (.fill dev n b dst)
  filling : ∀ p dev n b dst, s.calls p = some (.fill dev n b dst) →
    s.owner b = some p ∧ s.cache.Holds dev n b ∧ s.unsaved b = false
  fresh : ∀ b, (s.cache.bufs b).valid = false → (s.cache.bufs b).dirty = false
  current : ∀ b, (s.cache.bufs b).valid = true → (s.cache.bufs b).dev = ROOTDEV ∧
    (s.unsaved b = false → (s.cache.bufs b).data = s.last (s.cache.bufs b).blockno)
  pinned : ∀ n, s.disk n ≠ s.last n ∨ s.logged n = true → s.Pinned n

namespace Coherent

section

variable (h : s.Coherent)

include h

/-- The invariant does not depend on the calls in which no buffer is being read. -/
theorem calls {log : Log} {calls : P → Option (Bread B)} {script : P → List Stmt} {vars : P → Bool → Option B}
    (hcalls : ∀ p dev n b dst, calls p = some (.fill dev n b dst) ↔ s.calls p = some (.fill dev n b dst)) :
    ({ s with log := log, calls := calls, script := script, vars := vars } : Clients P B).Coherent where
  ordered := h.ordered
  unique := h.unique
  owned := h.owned
  saved := h.saved
  ready b p howner hvalid := by
    obtain ⟨dev, n, dst, hcall⟩ := h.ready b p howner hvalid
    exact ⟨dev, n, dst, (hcalls p dev n b dst).mpr hcall⟩
  filling p dev n b dst hcall := h.filling p dev n b dst ((hcalls p dev n b dst).mp hcall)
  fresh := h.fresh
  current := h.current
  pinned := h.pinned

/-- A process that is in no call holds only valid buffers. -/
theorem valid (howner : s.owner b = some p) (hcall : s.calls p = none) : (s.cache.bufs b).valid = true := by
  cases hvalid : (s.cache.bufs b).valid with
  | true => rfl
  | false =>
    obtain ⟨dev, n, dst, hfill⟩ := h.ready b p howner hvalid
    rw [hcall] at hfill
    cases hfill

theorem not_filling (howner : s.owner b = some p) (hcall : s.calls p = none) :
    s.calls q ≠ some (.fill dev n b dst) := by
  intro hfill
  have howner' := (h.filling q dev n b dst hfill).1
  rw [howner, Option.some.injEq] at howner'
  rw [← howner', hcall] at hfill
  cases hfill

theorem not_owned (hfree : (s.cache.bufs b).busy = false) : s.owner b = none := by
  rw [h.owned] at hfree
  exact Option.isSome_eq_false_iff.mp hfree |> Option.isNone_iff_eq_none.mp

/-- Only one buffer can keep a block in the cache. -/
theorem pins (hdev : (s.cache.bufs b).dev = ROOTDEV)
    (hn : s.disk (s.cache.bufs b).blockno ≠ s.last (s.cache.bufs b).blockno ∨
      s.logged (s.cache.bufs b).blockno = true) :
    (s.cache.bufs b).dirty = true := by
  obtain ⟨b', hholds, hdirty⟩ := h.pinned _ hn
  rw [← h.unique ROOTDEV _ b b' (by decide) ⟨hdev, rfl⟩ hholds]
  exact hdirty

/-- `bread` returns. -/
theorem finish [DecidableEq P] (hcall : s.calls p = some (.fill dev n b dst)) (hvalid : (s.cache.bufs b).valid = true) :
    (s.goto p none).Coherent where
  ordered := h.ordered
  unique := h.unique
  owned := h.owned
  saved := h.saved
  ready b' q howner hinvalid := by
    obtain ⟨dev', n', dst', hfill⟩ := h.ready b' q howner hinvalid
    have hq : q ≠ p := by
      rintro rfl
      rw [hcall] at hfill
      cases hfill
      simp [hvalid] at hinvalid
    exact ⟨dev', n', dst', by simpa [hq] using hfill⟩
  filling q dev' n' b' dst' hfill := by
    have hq : q ≠ p := by
      rintro rfl
      simp at hfill
    exact h.filling q dev' n' b' dst' (by simpa [hq] using hfill)
  fresh := h.fresh
  current := h.current
  pinned := h.pinned

end

/-- What the invariant says about one buffer. -/
structure Sound (s : Clients P B) (b : B) : Prop where
  owned : (s.cache.bufs b).busy = (s.owner b).isSome
  saved : s.owner b = none → s.unsaved b = false
  ready : ∀ p, s.owner b = some p → (s.cache.bufs b).valid = false → ∃ dev n dst, s.calls p = some (.fill dev n b dst)
  filling : ∀ p dev n dst, s.calls p = some (.fill dev n b dst) →
    s.owner b = some p ∧ s.cache.Holds dev n b ∧ s.unsaved b = false
  fresh : (s.cache.bufs b).valid = false → (s.cache.bufs b).dirty = false
  current : (s.cache.bufs b).valid = true → (s.cache.bufs b).dev = ROOTDEV ∧
    (s.unsaved b = false → (s.cache.bufs b).data = s.last (s.cache.bufs b).blockno)

/-- One buffer changes. -/
theorem alter (h : s.Coherent) (hordered : s'.cache.Ordered) (hother : ∀ b', b' ≠ b →
      s'.cache.bufs b' = s.cache.bufs b' ∧ s'.owner b' = s.owner b' ∧ s'.unsaved b' = s.unsaved b')
    (hcalls : ∀ q dev n b' dst, b' ≠ b →
      (s'.calls q = some (.fill dev n b' dst) ↔ s.calls q = some (.fill dev n b' dst)))
    (hlast : ∀ b' ≠ b, (s.cache.bufs b').valid = true →
      s'.last (s.cache.bufs b').blockno = s.last (s.cache.bufs b').blockno)
    (hunique : ∀ dev n b', b' ≠ b → dev ≠ Cache.NODEV → s'.cache.Holds dev n b → ¬ s.cache.Holds dev n b')
    (hpinned : ∀ n, s'.disk n ≠ s'.last n ∨ s'.logged n = true →
      s'.cache.Holds ROOTDEV n b ∧ (s'.cache.bufs b).dirty = true ∨ (s.disk n ≠ s.last n ∨ s.logged n = true) ∧
        (s.cache.Holds ROOTDEV n b ∧ (s.cache.bufs b).dirty = true →
          s'.cache.Holds ROOTDEV n b ∧ (s'.cache.bufs b).dirty = true)) (hsound : Sound s' b) : s'.Coherent := by
  have hholds {dev n : ℕ} {b' : B} (hb : b' ≠ b) : s'.cache.Holds dev n b' ↔ s.cache.Holds dev n b' := by
    rw [Cache.Holds, (hother b' hb).1, Cache.Holds]
  have hall (b' : B) : Sound s' b' := by
    by_cases hb : b' = b
    · rwa [hb]
    obtain ⟨hbuf, howner, hunsaved⟩ := hother b' hb
    constructor <;> simp only [hholds hb, hbuf, howner, hunsaved, hcalls _ _ _ _ _ hb]
    · exact h.owned b'
    · exact h.saved b'
    · exact h.ready b'
    · exact fun q dev n dst => h.filling q dev n b' dst
    · exact h.fresh b'
    · intro hvalid
      rw [hlast b' hb hvalid]
      exact h.current b' hvalid
  refine ⟨hordered, fun dev n b₁ b₂ hdev h₁ h₂ => ?_, fun b' => (hall b').owned, fun b' => (hall b').saved,
    fun b' => (hall b').ready, fun q dev n b' dst => (hall b').filling q dev n dst, fun b' => (hall b').fresh,
    fun b' => (hall b').current, fun n hn => ?_⟩
  · by_cases hb₁ : b₁ = b <;> by_cases hb₂ : b₂ = b
    · rw [hb₁, hb₂]
    · exact absurd ((hholds hb₂).mp h₂) (hunique dev n b₂ hb₂ hdev (hb₁ ▸ h₁))
    · exact absurd ((hholds hb₁).mp h₁) (hunique dev n b₁ hb₁ hdev (hb₂ ▸ h₂))
    · exact h.unique dev n b₁ b₂ hdev ((hholds hb₁).mp h₁) ((hholds hb₂).mp h₂)
  · rcases hpinned n hn with hpin | ⟨hn, hkeep⟩
    · exact ⟨b, hpin⟩
    obtain ⟨b', hpin⟩ := h.pinned n hn
    by_cases hb : b' = b
    · exact ⟨b, hkeep (hb ▸ hpin)⟩
    · exact ⟨b', (hholds hb).mpr hpin.1, (hother b' hb).1 ▸ hpin.2⟩

variable [DecidableEq B]

/-- A process takes a buffer that is free: it has the block, or is clean and gets it. -/
theorem take [DecidableEq P] (h : s.Coherent) (hfree : (s.cache.bufs b).busy = false)
    (hcall : ∀ dev n b dst, s.calls p ≠ some (.fill dev n b dst)) {buf : Buf} (hbusy : buf.busy = true)
    (hholds : buf.dev = dev ∧ buf.blockno = n) (hother : ∀ b' ≠ b, dev ≠ Cache.NODEV → ¬ s.cache.Holds dev n b')
    (hkeep : buf = { s.cache.bufs b with busy := true } ∨
      buf.valid = false ∧ buf.dirty = false ∧ (s.cache.bufs b).dirty = false) :
    ({ s with cache := s.cache.setBuf b buf, owner := update s.owner b (some p) }.goto p
      (some (.fill dev n b dst))).Coherent := by
  refine h.alter (b := b) h.ordered ?_ ?_ (fun _ _ _ => rfl) ?_ ?_ ?_
  · exact fun b' hb => ⟨Cache.setBuf_of_ne hb _, update_of_ne hb .., rfl⟩
  · exact fun q dev' n' b' dst' hb => update_eq_iff_of_ne (by simp [hb.symm]) (hcall dev' n' b' dst')
  · intro dev' n' b' hb hdev hnew
    simp only [goto, Cache.Holds, Cache.setBuf_self, hholds] at hnew
    obtain ⟨rfl, rfl⟩ := hnew
    exact hother b' hb hdev
  · refine fun m hm => .inr ⟨hm, fun ⟨hb, hdirty⟩ => ?_⟩
    simp only [goto, Cache.Holds, Cache.setBuf_self]
    rcases hkeep with rfl | ⟨-, -, hclean⟩
    · exact ⟨hb, hdirty⟩
    · rw [hclean] at hdirty
      cases hdirty
  constructor <;> simp only [goto, Cache.Holds, Cache.setBuf_self, update_self]
  · simp [hbusy]
  · nofun
  · rintro q ⟨⟩ -
    exact ⟨dev, n, dst, update_self ..⟩
  · intro q dev' n' dst' hfill
    by_cases hq : q = p
    · subst hq
      simp only [update_self, Option.some.injEq, Bread.fill.injEq] at hfill
      obtain ⟨rfl, rfl, -, -⟩ := hfill
      exact ⟨rfl, hholds, h.saved b (h.not_owned hfree)⟩
    have howner := (h.filling q dev' n' b dst' (by simpa [hq] using hfill)).1
    rw [h.not_owned hfree] at howner
    cases howner
  · rcases hkeep with rfl | ⟨-, hclean, -⟩
    · exact h.fresh b
    · exact fun _ => hclean
  · rcases hkeep with rfl | ⟨hinvalid, -⟩
    · exact h.current b
    · rw [hinvalid]
      nofun

/-- The holder of a buffer changes or syncs it, so that it is valid. A change is not what was last written. -/
theorem change (h : s.Coherent) (buf : Buf) (unsaved : Bool) (disk last : ℕ → Block) (logged : ℕ → Bool)
    (hbusy : buf.busy = (s.cache.bufs b).busy) (hdev : buf.dev = (s.cache.bufs b).dev)
    (hblockno : buf.blockno = (s.cache.bufs b).blockno) (hvalid : buf.valid = true) (hroot : buf.dev = ROOTDEV)
    (howner : s.owner b = some p) (hfill : unsaved = true → ∀ q dev n dst, s.calls q ≠ some (.fill dev n b dst))
    (hdata : unsaved = false → buf.data = last buf.blockno)
    (hframe : ∀ m ≠ buf.blockno, disk m = s.disk m ∧ last m = s.last m ∧ logged m = s.logged m)
    (hpin : disk buf.blockno ≠ last buf.blockno ∨ logged buf.blockno = true → buf.dirty = true) : ({ s with
      cache := s.cache.setBuf b buf
      disk := disk
      unsaved := update s.unsaved b unsaved
      last := last
      logged := logged } : Clients P B).Coherent := by
  refine h.alter (b := b) h.ordered ?_ (fun _ _ _ _ _ _ => .rfl) ?_ ?_ ?_ ?_
  · exact fun b' hb => ⟨Cache.setBuf_of_ne hb _, rfl, update_of_ne hb ..⟩
  · intro b' hb hvalid'
    refine (hframe _ fun heq => hb ?_).2.1
    exact h.unique ROOTDEV buf.blockno b b' (by decide) ⟨hdev ▸ hroot, hblockno.symm⟩ ⟨(h.current b' hvalid').1, heq⟩
  · intro dev' n' b' hb hne hnew hold
    exact hb (h.unique dev' n' b b' hne ((Cache.holds_setBuf hdev hblockno b).mp hnew) hold)
  · intro m hm
    by_cases hmn : m = buf.blockno
    · subst hmn
      exact .inl ⟨by simpa [Cache.Holds] using hroot, by simpa using hpin hm⟩
    obtain ⟨hdisk, hlast, hlogged⟩ := hframe m hmn
    simp only [hdisk, hlast, hlogged] at hm
    exact .inr ⟨hm, fun hb => absurd (hb.1.2.symm.trans hblockno.symm) hmn⟩
  constructor <;> simp only [Cache.setBuf_self, update_self, hvalid, hroot, howner]
  · rw [hbusy, h.owned, howner]
  · nofun
  · nofun
  · intro q dev' n' dst' hcall
    obtain ⟨howner', hholds, -⟩ := h.filling q dev' n' b dst' hcall
    refine ⟨howner ▸ howner', (Cache.holds_setBuf hdev hblockno b).mpr hholds, ?_⟩
    cases unsaved with
    | false => rfl
    | true => exact absurd hcall (hfill rfl q dev' n' dst')
  · nofun
  · exact fun _ => ⟨trivial, hdata⟩

end Coherent

section Operations

variable [DecidableEq B] {calls : P → Option (Bread B)}

theorem wakeup_eq_fill : wakeup calls b p = some (.fill dev n b' dst) ↔ calls p = some (.fill dev n b' dst) := by
  unfold wakeup
  split
  · next hcall =>
    split <;> simp [hcall]
  · rfl

/-- Whoever waits for a buffer keeps its place to put it. -/
def pending : Option (Bread B) → Option Bool
  | none => none
  | some (.get _ _ dst) | some (.asleep _ _ _ dst) | some (.fill _ _ _ dst) => dst

theorem pending_wakeup : pending (wakeup calls b p) = pending (calls p) := by
  unfold wakeup
  split
  · next hcall =>
    split <;> simp [hcall, pending]
  · rfl

/-- The buffers are for the same blocks, or were free and clean. -/
def KeepsBlocks (s s' : Clients P B) : Prop :=
  ∀ b, s'.cache.Holds (s.cache.bufs b).dev (s.cache.bufs b).blockno b ∨
    (s.cache.bufs b).busy = false ∧ (s.cache.bufs b).dirty = false

theorem keepsBlocks_setBuf {buf : Buf} (hcache : s'.cache = s.cache.setBuf b buf)
    (hdev : buf.dev = (s.cache.bufs b).dev)
    (hblockno : buf.blockno = (s.cache.bufs b).blockno) : s.KeepsBlocks s' := by
  intro b'
  rw [hcache]
  exact .inl ((Cache.holds_setBuf hdev hblockno b').mpr ⟨rfl, rfl⟩)

/-- What `bwrite` does when it returns. -/
theorem bwrite_ok (h : s.bwrite b data = .ok s') : (s.cache.bufs b).dev = ROOTDEV ∧ s' =
      { s with
        cache := s.cache.setBuf b { s.cache.bufs b with data := data, dirty := false, valid := true }
        disk := update s.disk (s.cache.bufs b).blockno data
        unsaved := update s.unsaved b false
        last := update s.last (s.cache.bufs b).blockno data
        logged := update s.logged (s.cache.bufs b).blockno false } := by
  unfold bwrite at h
  simp only at h
  split at h
  · cases h
  · obtain ⟨r, hrw, rfl⟩ := map_eq_ok.mp h
    obtain ⟨hdev, -, rfl⟩ := MemIde.iderw_ok hrw
    exact ⟨hdev, rfl⟩

variable (h : s.Coherent)

include h

theorem Coherent.bwrite (howner : s.owner b = some p) (hwrite : s.bwrite b data = .ok s') : s'.Coherent := by
  obtain ⟨hdev, rfl⟩ := bwrite_ok hwrite
  apply h.change { s.cache.bufs b with data := data, dirty := false, valid := true } false _ _ _ rfl rfl rfl rfl hdev
    howner nofun
  · simp
  · intro m hm
    exact ⟨update_of_ne hm .., update_of_ne hm .., update_of_ne hm ..⟩
  · simp

omit h in
/-- What `log_write` does when it returns. -/
theorem logWrite_ok (h : s.logWrite b = .ok s') : ∃ log, s' = { s with
      log := log
      cache := s.cache.setBuf b { s.cache.bufs b with dirty := true }
      unsaved := update s.unsaved b false
      last := update s.last (s.cache.bufs b).blockno (s.cache.bufs b).data
      logged := update s.logged (s.cache.bufs b).blockno true } := by
  obtain ⟨log, -, rfl⟩ := map_eq_ok.mp h
  exact ⟨log, rfl⟩

theorem Coherent.logWrite (howner : s.owner b = some p) (hcall : s.calls p = none) (hwrite : s.logWrite b = .ok s') :
    s'.Coherent := by
  obtain ⟨log, rfl⟩ := logWrite_ok hwrite
  have hvalid := h.valid howner hcall
  have hchange := h.change { s.cache.bufs b with dirty := true } false s.disk
    (update s.last (s.cache.bufs b).blockno (s.cache.bufs b).data)
    (update s.logged (s.cache.bufs b).blockno true) rfl rfl rfl hvalid (h.current b hvalid).1 howner nofun
    (by simp) (fun m hm => ⟨rfl, update_of_ne hm .., update_of_ne hm ..⟩) (fun _ => rfl)
  exact hchange.calls fun _ _ _ _ _ => .rfl

theorem Coherent.modify (howner : s.owner b = some p) (hcall : s.calls p = none) : ({ s with
      cache := s.cache.setBuf b { s.cache.bufs b with data := data }
      unsaved := update s.unsaved b true } : Clients P B).Coherent := by
  have hvalid := h.valid howner hcall
  have hdev := (h.current b hvalid).1
  exact h.change { s.cache.bufs b with data := data } true s.disk s.last s.logged rfl rfl rfl hvalid hdev howner
    (fun _ _ _ _ _ => h.not_filling howner hcall) nofun (fun _ _ => ⟨rfl, rfl, rfl⟩) (h.pins hdev)

/-- The buffer that `bread` returns is for the block, and has what was last written to it. -/
theorem Coherent.fill [DecidableEq P] (hcall : s.calls p = some (.fill dev n b dst)) (hfill : s.fill p b dst = .ok s') :
    s'.Coherent ∧ s.KeepsBlocks s' ∧
      s'.cache.Holds dev n b ∧ (s'.cache.bufs b).valid = true ∧ (s'.cache.bufs b).data = s'.last n ∧
      s'.last = s.last := by
  obtain ⟨howner, hholds, hsaved⟩ := h.filling p dev n b dst hcall
  have hassign : ∀ {t : Clients P B}, t.Coherent → (t.assign p dst b).Coherent := by
    intro t ht
    cases dst with
    | none => exact ht
    | some r => exact ht.calls fun _ _ _ _ _ => .rfl
  have hcache : ∀ t : Clients P B, (t.assign p dst b).cache = t.cache ∧ (t.assign p dst b).last = t.last := by
    intro t
    cases dst <;> exact ⟨rfl, rfl⟩
  unfold Clients.fill at hfill
  split at hfill
  · next hvalid =>
    cases hfill
    obtain ⟨hcache, hlast⟩ := hcache (s.goto p none)
    have hdata := (h.current b hvalid).2 hsaved
    rw [hholds.2] at hdata
    refine ⟨hassign (h.finish hcall hvalid), fun b' => .inl ?_, ?_⟩
    · rw [hcache]
      exact ⟨rfl, rfl⟩
    · rw [hcache, hlast]
      exact ⟨hholds, hvalid, hdata, rfl⟩
  next hinvalid =>
  have hinvalid : (s.cache.bufs b).valid = false := by simpa using hinvalid
  have hclean := h.fresh b hinvalid
  obtain ⟨r, hrw, rfl⟩ := map_eq_ok.mp hfill
  obtain ⟨hdev, -, hr⟩ := MemIde.iderw_ok hrw
  rw [if_neg (by simp [hclean])] at hr
  subst hr
  have hnot : ¬ (s.disk (s.cache.bufs b).blockno ≠ s.last (s.cache.bufs b).blockno ∨
      s.logged (s.cache.bufs b).blockno = true) := fun hn => by
    have hdirty := h.pins hdev hn
    rw [hclean] at hdirty
    cases hdirty
  have hdata := not_not.mp (not_or.mp hnot).1
  have hread := h.change { s.cache.bufs b with data := s.disk (s.cache.bufs b).blockno, valid := true }
    (s.unsaved b) s.disk s.last s.logged rfl rfl rfl rfl hdev howner
    (fun hunsaved => by rw [hsaved] at hunsaved; cases hunsaved) (fun _ => hdata) (fun _ _ => ⟨rfl, rfl, rfl⟩)
    (fun hn => absurd hn hnot)
  rw [update_eq_self] at hread
  refine ⟨hassign (hread.finish hcall (by simp)), ?_, ?_⟩
  · exact keepsBlocks_setBuf (hcache _).1 rfl rfl
  rw [(hcache _).1, (hcache _).2, ← hholds.2]
  refine ⟨?_, ?_, ?_, rfl⟩
  · simpa [Cache.Holds] using hholds.1
  · simp
  · simpa using hdata

/-- A released buffer stays as it is. -/
theorem Coherent.release (hsaved : s.unsaved b = false) (hfill : ∀ q dev n dst, s.calls q ≠ some (.fill dev n b dst))
    (hrelease : s.brelse b = .ok s') : s'.Coherent ∧ s.KeepsBlocks s' ∧ s' =
      { s with cache := s'.cache, owner := update s.owner b none, calls := wakeup s.calls b } := by
  obtain ⟨c, hc, rfl⟩ := map_eq_ok.mp hrelease
  have hbufs : c.bufs = (s.cache.setBuf b { s.cache.bufs b with busy := false }).bufs := by rw [Cache.brelse_ok hc]
  have hholds (dev n : ℕ) (b' : B) : c.Holds dev n b' ↔ s.cache.Holds dev n b' := by
    rw [Cache.Holds, hbufs]
    exact Cache.holds_setBuf (by rfl) (by rfl) b'
  refine ⟨?_, fun b' => .inl ((hholds ..).mpr ⟨rfl, rfl⟩), rfl⟩
  refine h.alter (b := b) (h.ordered.brelse hc) ?_ (fun _ _ _ _ _ _ => wakeup_eq_fill) (fun _ _ _ => rfl) ?_ ?_ ?_
  · intro b' hb
    exact ⟨by simp [hbufs, hb], update_of_ne hb .., rfl⟩
  · intro dev n b' hb hdev hnew hold
    exact hb (h.unique dev n b b' hdev ((hholds ..).mp hnew) hold)
  · refine fun m hm => .inr ⟨hm, fun hpin => ⟨(hholds ..).mpr hpin.1, ?_⟩⟩
    simpa [hbufs] using hpin.2
  constructor <;> simp only [hbufs, Cache.setBuf_self, update_self]
  · rfl
  · exact fun _ => hsaved
  · nofun
  · exact fun q dev n dst hcall => absurd (wakeup_eq_fill.mp hcall) (hfill q dev n dst)
  · exact h.fresh b
  · exact h.current b

end Operations

/-- The variables of a process that are in use have buffers that it holds, and that are not being read or changed. -/
structure Holding (s : Clients P B) (p : P) (held : Bool → Bool) : Prop where
  owns : ∀ r, held r = true → ∃ b, s.vars p r = some b ∧ s.owner b = some p ∧ s.unsaved b = false ∧
    ∀ dev n dst, s.calls p ≠ some (.fill dev n b dst)
  distinct : ∀ r r' b, held r = true → held r' = true → s.vars p r = some b → s.vars p r' = some b → r = r'

/-- The variables in use once the pending `bread` has returned. -/
def expected (held : Bool → Bool) : Option Bool → Bool → Bool
  | none => held
  | some r => update held r true

attribute [local simp] expected

/-- What is left of `end_op` is proper. -/
def Scripted (s : Clients P B) (p : P) : Prop :=
  ∃ held, s.Holding p held ∧ Stmt.Proper (expected held (pending (s.calls p))) (s.script p)

theorem Scripted.of_nil (h : s.script p = []) : s.Scripted p :=
  ⟨fun _ => false, ⟨nofun, nofun⟩, by rw [h]; trivial⟩

/-- Steps of others that leave alone what a process holds. -/
theorem Scripted.frame (h : s.Scripted q) (hvars : s'.vars q = s.vars q) (hscript : s'.script q = s.script q)
    (hpending : pending (s'.calls q) = pending (s.calls q))
    (hfill : ∀ dev n b dst, s'.calls q = some (.fill dev n b dst) → s.calls q = some (.fill dev n b dst))
    (howned : ∀ b, s.owner b = some q → s'.owner b = some q ∧ s'.unsaved b = s.unsaved b) : s'.Scripted q := by
  obtain ⟨held, hholding, hproper⟩ := h
  refine ⟨held, ⟨fun r hr => ?_, ?_⟩, by rw [hpending, hscript]; exact hproper⟩
  · obtain ⟨b, hb, howner, hsaved, hread⟩ := hholding.owns r hr
    obtain ⟨howner', hunsaved⟩ := howned b howner
    exact ⟨b, by rw [hvars, hb], howner', by rw [hunsaved, hsaved], fun dev n dst hcall =>
      hread dev n dst (hfill dev n b dst hcall)⟩
  · rw [hvars]
    exact hholding.distinct

/-- The invariant of the processes that use the cache. -/
structure Inv (s : Clients P B) : Prop where
  coherent : s.Coherent
  scripted : ∀ p, s.Scripted p

namespace Inv

attribute [local simp] pending

/-- The invariant holds at first. -/
theorem init [DecidableEq B] {bufs : List B} (hnodup : bufs.Nodup) (hall : ∀ b, b ∈ bufs) (disk : ℕ → Block)
    (start size : ℕ) :
    (init bufs disk start size : Clients P B).Inv := by
  have hbufs : ∀ b : B, (Cache.binit bufs).bufs b = ⟨false, false, false, Cache.NODEV, 0, fun _ => 0⟩ := fun b =>
    Cache.binit_bufs (hall b)
  refine ⟨?_, fun p => .of_nil rfl⟩
  constructor
  · exact Cache.binit_ordered hnodup hall
  · intro dev n b b' hdev hb
    exact absurd (hb.1.symm.trans (congrArg Buf.dev (hbufs b))) hdev
  · simp [hbufs]
  · exact fun _ _ => rfl
  · exact fun _ _ howner => nomatch howner
  · exact fun _ _ _ _ _ hcall => nomatch hcall
  · simp [hbufs]
  · intro b hvalid
    simp [hbufs] at hvalid
  · simp

variable [DecidableEq P]

variable (h : s.Inv)

include h

/-- A process in no call of `end_op` acts on buffers of its own. -/
theorem client (hcoherent : s'.Coherent) (hscript : s'.script = s.script) (hp : s.script p = [])
    (hvars : s'.vars = s.vars) (hpending : ∀ q ≠ p, pending (s'.calls q) = pending (s.calls q))
    (hfill : ∀ q dev n b dst, q ≠ p → s'.calls q = some (.fill dev n b dst) → s.calls q = some (.fill dev n b dst))
    (howned : ∀ q b, q ≠ p → s.owner b = some q → s'.owner b = some q ∧ s'.unsaved b = s.unsaved b) : s'.Inv := by
  refine ⟨hcoherent, fun q => ?_⟩
  by_cases hq : q = p
  · exact .of_nil (by rw [hscript, hq, hp])
  · exact (h.scripted q).frame (by rw [hvars]) (by rw [hscript]) (hpending q hq)
      (fun dev n b dst => hfill q dev n b dst hq)
      (fun b => howned q b hq)

/-- Whoever runs a statement of `end_op` goes on with the rest of it. -/
theorem exec_frame (hcoherent : s'.Coherent) (hvars : s'.vars = s.vars) (hscript : ∀ q ≠ p, s'.script q = s.script q)
    (hpending : ∀ q ≠ p, pending (s'.calls q) = pending (s.calls q))
    (hfill : ∀ q dev n b dst, s'.calls q = some (.fill dev n b dst) → s.calls q = some (.fill dev n b dst))
    (howned : ∀ q b, q ≠ p → s.owner b = some q → s'.owner b = some q ∧ s'.unsaved b = s.unsaved b)
    {held : Bool → Bool} (hholding : s.Holding p held)
    (hheld : ∀ r b, held r = true → s.vars p r = some b → s.owner b = some p → s.unsaved b = false →
      s'.owner b = some p ∧ s'.unsaved b = false)
    (hproper : Stmt.Proper (expected held (pending (s'.calls p))) (s'.script p)) : s'.Inv := by
  refine ⟨hcoherent, fun q => ?_⟩
  by_cases hq : q = p
  · subst hq
    refine ⟨held, ⟨fun r hr => ?_, ?_⟩, hproper⟩
    · obtain ⟨b, hb, howner, hsaved, hread⟩ := hholding.owns r hr
      obtain ⟨howner', hsaved'⟩ := hheld r b hr hb howner hsaved
      exact ⟨b, by rw [hvars, hb], howner', hsaved', fun dev n dst hcall => hread dev n dst (hfill q dev n b dst hcall)⟩
    · rw [hvars]
      exact hholding.distinct
  · exact (h.scripted q).frame (by rw [hvars]) (hscript q hq) (hpending q hq) (hfill q) (fun b => howned q b hq)

variable [DecidableEq B]

/-- `bget`, by a client or by `commit`. -/
theorem bget [Fintype B] (hcall : s.calls p = some (.get dev n dst)) (hget : s.bget p dev n dst = some (.ok s')) :
    s'.Inv ∧ s.KeepsBlocks s' := by
  have hnot : ∀ dev n b dst, s.calls p ≠ some (.fill dev n b dst) := fun _ _ _ _ hfill => by
    rw [hcall] at hfill
    cases hfill
  -- a free buffer, which no variable refers to, is now held by the process
  have htake : ∀ b buf, s.owner b = none →
      ({ s with cache := s.cache.setBuf b buf, owner := update s.owner b (some p) }.goto p
        (some (.fill dev n b dst))).Coherent →
      ({ s with cache := s.cache.setBuf b buf, owner := update s.owner b (some p) }.goto p
        (some (.fill dev n b dst))).Inv := by
    intro b buf hfree hcoherent
    have hne : ∀ {b' : B} {q : P}, s.owner b' = some q → b' ≠ b := by
      rintro b' q howner rfl
      rw [hfree] at howner
      cases howner
    refine ⟨hcoherent, fun q => ?_⟩
    by_cases hq : q = p
    · subst hq
      obtain ⟨held, hholding, hproper⟩ := h.scripted q
      refine ⟨held, ⟨fun r hr => ?_, hholding.distinct⟩, ?_⟩
      · obtain ⟨b', hb', howner, hsaved, -⟩ := hholding.owns r hr
        refine ⟨b', hb', by simpa [hne howner] using howner, hsaved, ?_⟩
        intro dev' n' dst' hfill
        simp only [goto, update_self, Option.some.injEq, Bread.fill.injEq] at hfill
        exact hne howner hfill.2.2.1.symm
      · rw [hcall] at hproper
        simpa using hproper
    · refine (h.scripted q).frame rfl rfl ?_ ?_ ?_
      · simp [hq]
      · simp [hq]
      · exact fun b' howner => ⟨by simpa [hne howner] using howner, rfl⟩
  obtain ⟨r, hr, hgets⟩ := h.coherent.ordered.bget dev n
  rw [Clients.bget, hr, Option.map_some, Option.some.injEq] at hget
  cases hgets with
  | hit b hholds hfree =>
    cases hget
    refine ⟨htake b _ (h.coherent.not_owned hfree) (h.coherent.take hfree hnot rfl hholds ?_ (.inl rfl)), ?_⟩
    · exact fun b' hne hdev hb' => hne (h.coherent.unique dev n b b' hdev hholds hb')
    · exact keepsBlocks_setBuf rfl rfl rfl
  | wait b hholds hbusy =>
    cases hget
    have hfill (q : P) (dev' n' : ℕ) (b' : B) (dst' : Option Bool) :
        update s.calls p (some (.asleep dev n b dst)) q = some (.fill dev' n' b' dst') ↔
          s.calls q = some (.fill dev' n' b' dst') :=
      update_eq_iff_of_ne nofun (hnot dev' n' b' dst')
    refine ⟨⟨h.coherent.calls hfill, fun q => ?_⟩, fun b' => .inl ⟨rfl, rfl⟩⟩
    refine (h.scripted q).frame rfl rfl ?_ (fun _ _ _ _ => (hfill ..).mp) fun b' howner => ⟨howner, rfl⟩
    by_cases hq : q = p
    · subst hq
      simp [hcall]
    · simp [hq]
  | recycle b hmiss hfree hclean =>
    cases hget
    refine ⟨htake b _ (h.coherent.not_owned hfree)
      (h.coherent.take hfree hnot rfl ⟨rfl, rfl⟩ ?_ (.inr ⟨rfl, rfl, hclean⟩)), ?_⟩
    · exact fun b' _ _ => hmiss b'
    intro b'
    by_cases hb : b' = b
    · subst hb
      exact .inr ⟨hfree, hclean⟩
    · exact .inl ((Cache.holds_setBuf_of_ne hb _).mpr ⟨rfl, rfl⟩)
  | full hmiss hfull => cases hget

/-- `bread` returns, to a client or to `commit`. -/
theorem fill (hcall : s.calls p = some (.fill dev n b dst)) (hfill : s.fill p b dst = .ok s') :
    s'.Inv ∧ s.KeepsBlocks s' := by
  obtain ⟨hcoherent, hkeeps, -⟩ := h.coherent.fill hcall hfill
  refine ⟨⟨hcoherent, fun q => ?_⟩, hkeeps⟩
  obtain ⟨howner, -, hsaved⟩ := h.coherent.filling p dev n b dst hcall
  -- apart from the buffer's contents, only the call and the variable change
  obtain ⟨cache, disk, rfl⟩ :
      ∃ cache disk, s' = ({ s with cache := cache, disk := disk }.goto p none).assign p dst b := by
    unfold Clients.fill at hfill
    split at hfill
    · exact ⟨s.cache, s.disk, (Except.ok.inj hfill).symm⟩
    · obtain ⟨r, -, rfl⟩ := map_eq_ok.mp hfill
      exact ⟨_, _, rfl⟩
  by_cases hq : q = p
  · subst hq
    obtain ⟨held, hholding, hproper⟩ := h.scripted q
    rw [hcall] at hproper
    have hother : ∀ r, held r = true → s.vars q r ≠ some b := by
      intro r hr hb
      obtain ⟨b', hb', -, -, hread⟩ := hholding.owns r hr
      rw [hb, Option.some.injEq] at hb'
      exact hread dev n dst (hb' ▸ hcall)
    cases dst with
    | none =>
      refine ⟨held, ⟨fun r hr => ?_, hholding.distinct⟩, by simpa using hproper⟩
      obtain ⟨b', hb', howner', hsaved', -⟩ := hholding.owns r hr
      exact ⟨b', hb', howner', hsaved', by simp⟩
    | some r₀ =>
      refine ⟨update held r₀ true, ⟨fun r hr => ?_, ?_⟩, by simpa using hproper⟩
      · by_cases hr₀ : r = r₀
        · subst hr₀
          exact ⟨b, by simp, howner, hsaved, by simp⟩
        · rw [update_of_ne hr₀] at hr
          obtain ⟨b', hb', howner', hsaved', -⟩ := hholding.owns r hr
          exact ⟨b', by simpa [hr₀] using hb', howner', hsaved', by simp⟩
      intro r r' b' hr hr' hb hb'
      simp only [assign, goto, update_self] at hb hb'
      by_cases h₁ : r = r₀ <;> by_cases h₂ : r' = r₀
      · rw [h₁, h₂]
      · simp only [h₁, h₂, update_self, update_of_ne, ne_eq, not_false_eq_true,
          Option.some.injEq] at hb hb' hr'
        exact absurd (hb ▸ hb') (hother r' hr')
      · simp only [h₁, h₂, update_self, update_of_ne, ne_eq, not_false_eq_true,
          Option.some.injEq] at hb hb' hr
        exact absurd (hb' ▸ hb) (hother r hr)
      · simp only [h₁, h₂, update_of_ne, ne_eq, not_false_eq_true] at hb hb' hr hr'
        exact hholding.distinct r r' b' hr hr' hb hb'
  · refine (h.scripted q).frame ?_ ?_ ?_ ?_ fun b' howner' => ?_
    all_goals cases dst <;> simp_all

/-- A statement of `end_op`. -/
theorem exec {stmt : Stmt} {rest : List Stmt} (hcall : s.calls p = none) (hscript : s.script p = stmt :: rest)
    (hexec : ({ s with script := update s.script p rest } : Clients P B).exec p stmt = some (.ok s')) :
    s'.Inv ∧ s.KeepsBlocks s' := by
  have hcoherent : ({ s with script := update s.script p rest } : Clients P B).Coherent :=
    h.coherent.calls fun _ _ _ _ _ => .rfl
  obtain ⟨held, hholding, hproper⟩ := h.scripted p
  rw [hcall, hscript] at hproper
  have hother : ∀ q ≠ p, update s.script p rest q = s.script q := fun q hq => update_of_ne hq ..
  -- `bwrite` on a buffer that a variable refers to
  have hwrite : ∀ {r b data}, held r = true → s.vars p r = some b → Stmt.Proper held rest →
      ({ s with script := update s.script p rest } : Clients P B).bwrite b data = .ok s' →
      s'.Inv ∧ s.KeepsBlocks s' := by
    intro r b data hr hb hrest hok
    obtain ⟨b', hb', howner, hsaved, -⟩ := hholding.owns r hr
    rw [hb, Option.some.injEq] at hb'
    subst hb'
    have hcoherent' := hcoherent.bwrite howner hok
    obtain ⟨-, rfl⟩ := bwrite_ok hok
    refine ⟨h.exec_frame hcoherent' rfl hother (fun _ _ => rfl) (fun _ _ _ _ _ hfill => hfill) ?_ hholding ?_ ?_,
      keepsBlocks_setBuf rfl rfl rfl⟩
    · intro q b' hq howner'
      have hne : b' ≠ b := by
        rintro rfl
        exact hq (Option.mem_unique howner' howner)
      exact ⟨howner', update_of_ne hne ..⟩
    · intro r' b' _ _ howner' hsaved'
      by_cases hb' : b' = b
      · simp [hb', howner]
      · exact ⟨howner', by simpa [hb'] using hsaved'⟩
    · simpa [hcall] using hrest
  cases stmt with
  | bread r n =>
    cases hexec
    have hnot : ∀ q dev' n' b' dst', update s.calls p (some (Bread.get ROOTDEV n (some r))) q =
        some (.fill dev' n' b' dst') ↔ s.calls q = some (.fill dev' n' b' dst') := fun _ _ _ _ _ =>
      update_eq_iff_of_ne nofun (by simp [hcall])
    refine ⟨h.exec_frame (hcoherent.calls hnot) rfl hother ?_ (fun q _ _ _ _ => (hnot ..).mp) ?_ hholding ?_ ?_,
      fun b => .inl ⟨rfl, rfl⟩⟩
    · intro q hq
      simp [hq]
    · exact fun _ _ _ howner => ⟨howner, rfl⟩
    · exact fun _ _ _ _ howner hsaved => ⟨howner, hsaved⟩
    · simpa [Stmt.Proper] using hproper
  | copy r₁ r₂ =>
    obtain ⟨h₁, h₂, hrest⟩ := hproper
    obtain ⟨b₁, hb₁, -⟩ := hholding.owns r₁ h₁
    obtain ⟨b₂, hb₂, -⟩ := hholding.owns r₂ h₂
    simp only [Clients.exec, hb₁, hb₂, Option.some.injEq] at hexec
    exact hwrite h₁ hb₁ hrest hexec
  | head r =>
    obtain ⟨hr, hrest⟩ := hproper
    obtain ⟨b, hb, -⟩ := hholding.owns r hr
    simp only [Clients.exec, hb, Option.map_some, Option.some.injEq] at hexec
    exact hwrite hr hb hrest hexec
  | brelse r =>
    obtain ⟨hr, hrest⟩ := hproper
    obtain ⟨b, hb, howner, hsaved, hread⟩ := hholding.owns r hr
    simp only [Clients.exec, hb, Option.map_some, Option.some.injEq] at hexec
    obtain ⟨hcoherent', hkeeps, hs'⟩ := hcoherent.release hsaved
      (fun _ _ _ _ => hcoherent.not_filling howner hcall) hexec
    rw [hs'] at hcoherent' hkeeps ⊢
    have hholding' : s.Holding p (update held r false) := by
      have hle : ∀ r', update held r false r' = true → held r' = true := by
        intro r' hr'
        by_cases heq : r' = r
        · simp [heq] at hr'
        · simpa [heq] using hr'
      exact ⟨fun r' hr' => hholding.owns r' (hle r' hr'), fun r₁ r₂ b' h₁ h₂ =>
        hholding.distinct r₁ r₂ b' (hle r₁ h₁) (hle r₂ h₂)⟩
    refine ⟨h.exec_frame hcoherent' rfl hother (fun q _ => pending_wakeup) (fun q _ _ _ _ => wakeup_eq_fill.mp) ?_
      hholding' ?_ ?_, hkeeps⟩
    · intro q b' hq howner'
      have hne : b' ≠ b := by
        rintro rfl
        exact hq (Option.mem_unique howner' howner)
      exact ⟨by simpa [hne] using howner', rfl⟩
    · intro r' b' hr' hb' howner' hsaved'
      have hrr : r' ≠ r := by
        rintro rfl
        simp at hr'
      have hne : b' ≠ b := by
        rintro rfl
        exact hrr (hholding.distinct r' r b' (by simpa [hrr] using hr') hr hb' hb)
      exact ⟨by simpa [hne] using howner', hsaved'⟩
    · change Stmt.Proper (expected _ (pending (wakeup s.calls b p))) (update s.script p rest p)
      rw [pending_wakeup, hcall, update_self]
      exact hrest
  | clear | finish =>
    cases hexec
    refine ⟨h.exec_frame (h.coherent.calls fun _ _ _ _ _ => .rfl) rfl hother (fun _ _ => rfl)
      (fun _ _ _ _ _ hfill => hfill) (fun _ _ _ howner => ⟨howner, rfl⟩) hholding
      (fun _ _ _ _ howner hsaved => ⟨howner, hsaved⟩) ?_, fun b => .inl ⟨rfl, rfl⟩⟩
    simpa [hcall, Stmt.Proper] using hproper

/-- The invariant is kept by every step. -/
theorem step [Fintype B] {a : Action P B} (hstep : s.step a = some (.ok s')) : s'.Inv ∧ s.KeepsBlocks s' := by
  -- another process's buffers are not the acting one's
  have hother : ∀ {p q : P} {b b' : B}, s.owner b = some p → q ≠ p → s.owner b' = some q → b' ≠ b := by
    rintro p q b b' howner hq howner' rfl
    exact hq (Option.mem_unique howner' howner)
  cases a with
  | bread p dev n =>
    simp only [Clients.step, enabled_ok_iff] at hstep
    obtain ⟨⟨hcall, hscript⟩, rfl⟩ := hstep
    refine ⟨h.client (h.coherent.calls fun _ _ _ _ _ => update_eq_iff_of_ne nofun (by simp [hcall])) rfl
      hscript rfl ?_ ?_
      fun _ _ _ howner => ⟨howner, rfl⟩, fun b => .inl ⟨rfl, rfl⟩⟩
    · intro q hq
      simp [hq]
    · intro q dev' n' b' dst' hq
      simp [hq]
  | run p =>
    simp only [Clients.step, run] at hstep
    cases hcall : s.calls p with
    | none =>
      simp only [hcall] at hstep
      cases hscript : s.script p with
      | nil => simp [hscript] at hstep
      | cons stmt rest =>
        simp only [hscript] at hstep
        exact h.exec hcall hscript hstep
    | some call =>
      cases call with
      | get dev n dst =>
        simp only [hcall] at hstep
        exact h.bget hcall hstep
      | asleep dev n b dst => simp [hcall] at hstep
      | fill dev n b dst =>
        simp only [hcall, Option.some.injEq] at hstep
        exact h.fill hcall hstep
  | modify p b data =>
    simp only [Clients.step, enabled_ok_iff] at hstep
    obtain ⟨⟨⟨hcall, hscript⟩, howner⟩, rfl⟩ := hstep
    refine ⟨h.client (h.coherent.modify howner hcall) rfl hscript rfl (fun _ _ => rfl)
      (fun _ _ _ _ _ _ hfill => hfill) ?_,
      keepsBlocks_setBuf rfl rfl rfl⟩
    exact fun q b' hq howner' => ⟨howner', update_of_ne (hother howner hq howner') ..⟩
  | logWrite p b =>
    simp only [Clients.step, enabled_iff] at hstep
    obtain ⟨⟨⟨hcall, hscript⟩, howner⟩, hwrite⟩ := hstep
    have hcoherent := h.coherent.logWrite howner hcall hwrite
    obtain ⟨log, rfl⟩ := logWrite_ok hwrite
    refine ⟨h.client hcoherent rfl hscript rfl (fun _ _ => rfl) (fun _ _ _ _ _ _ hfill => hfill) ?_,
      keepsBlocks_setBuf rfl rfl rfl⟩
    exact fun q b' hq howner' => ⟨howner', update_of_ne (hother howner hq howner') ..⟩
  | bwrite p b =>
    simp only [Clients.step, enabled_iff] at hstep
    obtain ⟨⟨⟨hcall, hscript⟩, howner⟩, hwrite⟩ := hstep
    have hcoherent := h.coherent.bwrite howner hwrite
    obtain ⟨-, rfl⟩ := bwrite_ok hwrite
    refine ⟨h.client hcoherent rfl hscript rfl (fun _ _ => rfl) (fun _ _ _ _ _ _ hfill => hfill) ?_,
      keepsBlocks_setBuf rfl rfl rfl⟩
    exact fun q b' hq howner' => ⟨howner', update_of_ne (hother howner hq howner') ..⟩
  | brelse p b =>
    simp only [Clients.step, enabled_iff] at hstep
    obtain ⟨⟨⟨hcall, hscript⟩, howner, hsaved⟩, hrelease⟩ := hstep
    obtain ⟨hcoherent, hkeeps, hs'⟩ := h.coherent.release hsaved
      (fun _ _ _ _ => h.coherent.not_filling howner hcall) hrelease
    rw [hs'] at hcoherent hkeeps ⊢
    refine ⟨h.client hcoherent rfl hscript rfl (fun _ _ => pending_wakeup)
      (fun _ _ _ _ _ _ => wakeup_eq_fill.mp) ?_, hkeeps⟩
    exact fun q b' hq howner' => ⟨by simpa [hother howner hq howner'] using howner', rfl⟩
  | beginOp p =>
    simp only [Clients.step, Option.ite_none_right_eq_some, Option.map_eq_some_iff, Except.ok.injEq] at hstep
    obtain ⟨⟨hcall, hscript⟩, log, -, rfl⟩ := hstep
    exact ⟨h.client (h.coherent.calls fun _ _ _ _ _ => .rfl) rfl hscript rfl (fun _ _ => rfl)
      (fun _ _ _ _ _ _ hfill => hfill) fun _ _ _ howner => ⟨howner, rfl⟩, fun b => .inl ⟨rfl, rfl⟩⟩
  | endOp p =>
    simp only [Clients.step, enabled_iff] at hstep
    obtain ⟨⟨hcall, hscript⟩, hend⟩ := hstep
    obtain ⟨⟨log, doCommit⟩, -, rfl⟩ := map_eq_ok.mp hend
    refine ⟨⟨h.coherent.calls fun _ _ _ _ _ => .rfl, fun q => ?_⟩, fun b => .inl ⟨rfl, rfl⟩⟩
    by_cases hq : q = p
    · subst hq
      cases doCommit with
      | false => exact .of_nil hscript
      | true =>
        refine ⟨fun _ => false, ⟨nofun, nofun⟩, ?_⟩
        simpa [hcall] using Stmt.proper_endOp log
    · refine (h.scripted q).frame rfl ?_ rfl (fun _ _ _ _ hfill => hfill) fun _ howner => ⟨howner, rfl⟩
      cases doCommit <;> simp [hq]

end Inv

/-- Process 0 logs a change of block 50, and process 1 reads the block before the commit. -/
def changeThenRead : List (Action (Fin 2) (Fin NBUF)) :=
  [.beginOp 0, .bread 0 ROOTDEV 50, .run 0, .run 0, .modify 0 0 fun _ => 97, .logWrite 0 0, .brelse 0 0,
    .bread 1 ROOTDEV 50, .run 1]

end Clients

end Xv6
