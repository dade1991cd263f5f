import Xv6.Cache.Refinement

/-!
# The size of the buffer cache

The cache has as many buffers as the log may have blocks. A logged block keeps its buffer until it is installed, and
a process that reads a file keeps the buffers that it holds, in a transaction or not. `bget` finds no buffer exactly
when the blocks of both kinds fill the cache, which the admission of operations does not prevent.
-/

namespace Xv6

open Lib
open Function (update)
open Option (map_eq_some_iff ite_none_right_eq_some)

/-- The device that a call of `bread` reads. -/
def Bread.dev {B : Type} : Bread B → ℕ
  | .get dev _ _ | .asleep dev _ _ _ | .fill dev _ _ _ => dev

namespace Clients

variable {P B : Type} {s s' : Clients P B} {p : P} {b : B} {dev n : ℕ} {dst : Option Bool} {data : Block}

/-- Only blocks of the file system's disk are read, and only logged blocks are dirty. -/
structure Rooted (s : Clients P B) : Prop where
  calls : ∀ p call, s.calls p = some call → call.dev = ROOTDEV
  owned : ∀ b, s.owner b ≠ none → (s.cache.bufs b).dev = ROOTDEV
  dirty : ∀ b, (s.cache.bufs b).dirty = true → s.logged (s.cache.bufs b).blockno = true

theorem dev_of_wakeup [DecidableEq B] {calls : P → Option (Bread B)} {call : Bread B}
    (hcalls : ∀ c, calls p = some c → c.dev = dev) (hcall : wakeup calls b p = some call) : call.dev = dev := by
  unfold wakeup at hcall
  split at hcall
  · next hp =>
    split at hcall
    · have hdev := hcalls _ hp
      cases hcall
      exact hdev
    · exact hcalls call hcall
  · exact hcalls call hcall

theorem Coherent.dev_of_dirty (h : s.Coherent) (hdirty : (s.cache.bufs b).dirty = true) :
    (s.cache.bufs b).dev = ROOTDEV := by
  cases hvalid : (s.cache.bufs b).valid with
  | true => exact (h.current b hvalid).1
  | false =>
    rw [h.fresh b hvalid] at hdirty
    cases hdirty

namespace Rooted

theorem goto [DecidableEq P] (h : s.Rooted) (call : Option (Bread B)) (hcall : ∀ c, call = some c → c.dev = ROOTDEV) :
    (s.goto p call).Rooted where
  calls q c hc := by
    by_cases hq : q = p
    · subst hq
      exact hcall c (by simpa [Clients.goto] using hc)
    · exact h.calls q c (by simpa [Clients.goto, hq] using hc)
  owned := h.owned
  dirty := h.dirty

theorem assign [DecidableEq P] (h : s.Rooted) : (s.assign p dst b).Rooted := by
  cases dst with
  | none => exact h
  | some r => exact ⟨h.calls, h.owned, h.dirty⟩

variable [DecidableEq B]

variable (h : s.Rooted)

include h

/-- A buffer changes, but not the block that it is for. -/
theorem setBuf (buf : Buf) (disk : ℕ → Block) (hdev : buf.dev = (s.cache.bufs b).dev)
    (hblockno : buf.blockno = (s.cache.bufs b).blockno) (hdirty : buf.dirty = (s.cache.bufs b).dirty) :
    ({ s with cache := s.cache.setBuf b buf, disk := disk } : Clients P B).Rooted where
  calls := h.calls
  owned b' howner := by
    by_cases hb : b' = b
    · subst hb
      simpa [hdev] using h.owned b' howner
    · simpa [hb] using h.owned b' howner
  dirty b' hb' := by
    by_cases hb : b' = b
    · subst hb
      simp only [Cache.setBuf_self, hdirty, hblockno] at hb' ⊢
      exact h.dirty b' hb'
    · simp only [Cache.setBuf_of_ne hb] at hb' ⊢
      exact h.dirty b' hb'

theorem bwrite (hcoherent : s.Coherent) (hwrite : s.bwrite b data = .ok s') : s'.Rooted := by
  obtain ⟨hdev, rfl⟩ := bwrite_ok hwrite
  refine ⟨h.calls, fun b' howner => ?_, fun b' hdirty => ?_⟩
  · by_cases hb : b' = b
    · simpa [hb] using hdev
    · simpa [hb] using h.owned b' howner
  have hb : b' ≠ b := by
    rintro rfl
    simp at hdirty
  simp only [Cache.setBuf_of_ne hb] at hdirty ⊢
  -- the block that was written is in no other buffer
  have hne : (s.cache.bufs b').blockno ≠ (s.cache.bufs b).blockno := fun heq =>
    hb (hcoherent.unique ROOTDEV _ b b' (by decide) ⟨hdev, rfl⟩ ⟨hcoherent.dev_of_dirty hdirty, heq⟩)
  simpa [hne] using h.dirty b' hdirty

theorem logWrite (hwrite : s.logWrite b = .ok s') : s'.Rooted := by
  obtain ⟨log, rfl⟩ := logWrite_ok hwrite
  refine ⟨h.calls, fun b' howner => ?_, fun b' hdirty => ?_⟩
  · by_cases hb : b' = b
    · subst hb
      simpa using h.owned b' howner
    · simpa [hb] using h.owned b' howner
  by_cases hb : b' = b
  · simp [hb]
  · simp only [Cache.setBuf_of_ne hb] at hdirty ⊢
    by_cases hn : (s.cache.bufs b').blockno = (s.cache.bufs b).blockno
    · simp [hn]
    · simpa [hn] using h.dirty b' hdirty

theorem brelse (hrelease : s.brelse b = .ok s') : s'.Rooted := by
  obtain ⟨c, hc, rfl⟩ := map_eq_ok.mp hrelease
  obtain rfl := Cache.brelse_ok hc
  have hfree := h.setBuf { s.cache.bufs b with busy := false } s.disk (b := b) rfl rfl rfl
  refine ⟨fun q call => dev_of_wakeup (h.calls q), fun b' howner => hfree.owned b' ?_, hfree.dirty⟩
  by_cases hb : b' = b
  · simp [hb] at howner
  · simpa [hb] using howner

theorem fill [DecidableEq P] (hcoherent : s.Coherent) (hfill : s.fill p b dst = .ok s') : s'.Rooted := by
  unfold Clients.fill at hfill
  split at hfill
  · cases hfill
    exact (h.goto none nofun).assign
  next hinvalid =>
  obtain ⟨r, hrw, rfl⟩ := map_eq_ok.mp hfill
  obtain ⟨-, -, rfl⟩ := MemIde.iderw_ok hrw
  have hclean := hcoherent.fresh b (by simpa using hinvalid)
  rw [if_neg (by simp [hclean])]
  have hread := h.setBuf (b := b) { s.cache.bufs b with data := s.disk (s.cache.bufs b).blockno, valid := true } s.disk
    rfl rfl rfl
  exact (hread.goto none nofun).assign

theorem bget [DecidableEq P] [Fintype B] (hcoherent : s.Coherent) (hcall : s.calls p = some (.get dev n dst))
    (hget : s.bget p dev n dst = some (.ok s')) : s'.Rooted := by
  have hdev : dev = ROOTDEV := h.calls p _ hcall
  -- a free buffer is taken
  have htake : ∀ b buf, buf.dev = dev → (buf.dirty = true → s.logged buf.blockno = true) →
      ({ s with cache := s.cache.setBuf b buf, owner := update s.owner b (some p) }.goto p
        (some (.fill dev n b dst))).Rooted := by
    intro b buf hbuf hdirty
    have htaken : ({ s with
        cache := s.cache.setBuf b buf, owner := update s.owner b (some p) } : Clients P B).Rooted := by
      refine ⟨h.calls, fun b' howner => ?_, fun b' hb' => ?_⟩
      · by_cases hb : b' = b
        · subst hb
          simp [hbuf, hdev]
        · simpa [hb] using h.owned b' (by simpa [hb] using howner)
      by_cases hb : b' = b
      · subst hb
        simp only [Cache.setBuf_self] at hb' ⊢
        exact hdirty hb'
      · simp only [Cache.setBuf_of_ne hb] at hb' ⊢
        exact h.dirty b' hb'
    exact htaken.goto _ fun c hc => by
      cases hc
      exact hdev
  obtain ⟨r, hr, hgets⟩ := hcoherent.ordered.bget dev n
  rw [Clients.bget, hr, Option.map_some, Option.some.injEq] at hget
  cases hgets with
  | hit b hholds hfree =>
    cases hget
    exact htake b _ hholds.1 (h.dirty b)
  | wait b hholds hbusy =>
    cases hget
    exact h.goto _ fun c hc => by
      cases hc
      exact hdev
  | recycle b hmiss hfree hclean =>
    cases hget
    exact htake b _ rfl fun hdirty => absurd hdirty Bool.false_ne_true
  | full hmiss hfull => cases hget

theorem exec [DecidableEq P] (hcoherent : s.Coherent) {stmt : Stmt} (hexec : s.exec p stmt = some (.ok s')) :
    s'.Rooted := by
  cases stmt with
  | bread r n =>
    cases hexec
    exact h.goto _ fun c hc => by
      cases hc
      rfl
  | copy r₁ r₂ =>
    simp only [Clients.exec] at hexec
    split at hexec
    · exact h.bwrite hcoherent (Option.some.inj hexec)
    · cases hexec
  | head r =>
    obtain ⟨b, -, hwrite⟩ := map_eq_some_iff.mp hexec
    exact h.bwrite hcoherent hwrite
  | brelse r =>
    obtain ⟨b, -, hrelease⟩ := map_eq_some_iff.mp hexec
    exact h.brelse hrelease
  | clear | finish =>
    cases hexec
    exact ⟨h.calls, h.owned, h.dirty⟩

/-- Steps that read only the file system's disk. -/
theorem step [DecidableEq P] [Fintype B] (hinv : s.Inv) {a : Action P B}
    (ha : ∀ p dev n, a = .bread p dev n → dev = ROOTDEV) (hstep : s.step a = some (.ok s')) : s'.Rooted := by
  cases a with
  | bread p dev n =>
    simp only [Clients.step, enabled_ok_iff] at hstep
    obtain ⟨-, rfl⟩ := hstep
    exact h.goto _ fun c hc => by
      cases hc
      exact ha p dev n rfl
  | run p =>
    simp only [Clients.step, run] at hstep
    split at hstep
    · next hcall => exact h.bget hinv.coherent hcall hstep
    · cases hstep
    · exact h.fill hinv.coherent (Option.some.inj hstep)
    split at hstep
    · cases hstep
    · next stmt rest _ =>
      have hpop : ({ s with script := update s.script p rest } : Clients P B).Rooted :=
        ⟨h.calls, h.owned, h.dirty⟩
      exact hpop.exec (hinv.coherent.calls fun _ _ _ _ _ => .rfl) hstep
  | modify p b data =>
    simp only [Clients.step, enabled_ok_iff] at hstep
    obtain ⟨-, rfl⟩ := hstep
    have hset := h.setBuf { s.cache.bufs b with data := data } s.disk (b := b) rfl rfl rfl
    exact ⟨hset.calls, hset.owned, hset.dirty⟩
  | logWrite p b =>
    simp only [Clients.step, enabled_iff] at hstep
    exact h.logWrite hstep.2
  | bwrite p b =>
    simp only [Clients.step, enabled_iff] at hstep
    exact h.bwrite hinv.coherent hstep.2
  | brelse p b =>
    simp only [Clients.step, enabled_iff] at hstep
    exact h.brelse hstep.2
  | beginOp p =>
    simp only [Clients.step, ite_none_right_eq_some, map_eq_some_iff, Except.ok.injEq] at hstep
    obtain ⟨-, log, -, rfl⟩ := hstep
    exact ⟨h.calls, h.owned, h.dirty⟩
  | endOp p =>
    simp only [Clients.step, enabled_iff] at hstep
    obtain ⟨r, -, rfl⟩ := map_eq_ok.mp hstep.2
    exact ⟨h.calls, h.owned, h.dirty⟩

end Rooted

section Errors

variable [DecidableEq B]

theorem bwrite_ne_error : s.bwrite b data ≠ .error "bget: no buffers" := by
  unfold bwrite
  intro h
  simp only at h
  split at h
  · simp at h
  · replace h := map_eq_error.mp h
    unfold MemIde.iderw at h
    repeat' split at h
    all_goals simp at h

theorem logWrite_ne_error : s.logWrite b ≠ .error "bget: no buffers" := by
  intro h
  replace h := map_eq_error.mp (map_eq_error.mp h)
  unfold Log.logTest at h
  repeat' split at h
  all_goals simp at h

theorem brelse_ne_error : s.brelse b ≠ .error "bget: no buffers" := by
  intro h
  replace h := map_eq_error.mp h
  unfold Cache.brelse at h
  split at h <;> simp at h

theorem fill_ne_error [DecidableEq P] : s.fill p b dst ≠ .error "bget: no buffers" := by
  unfold fill
  intro h
  split at h
  · cases h
  · replace h := map_eq_error.mp h
    unfold MemIde.iderw at h
    repeat' split at h
    all_goals simp at h

/-- Only `bget` panics for want of a buffer. -/
theorem step_no_buffers [DecidableEq P] [Fintype B] {a : Action P B} (h : s.step a = some (.error "bget: no buffers")) :
    ∃ p dev n dst, a = .run p ∧ s.calls p = some (.get dev n dst) ∧
      s.cache.bget dev n = some (.error "bget: no buffers") := by
  cases a with
  | bread p dev n | modify p b data =>
    simp [Clients.step] at h
  | run p =>
    simp only [Clients.step, run] at h
    split at h
    · next dev n dst hcall =>
      obtain ⟨r, hr, hmap⟩ := map_eq_some_iff.mp h
      rw [map_eq_error.mp hmap] at hr
      exact ⟨p, dev, n, dst, rfl, hcall, hr⟩
    · cases h
    · exact absurd (Option.some.inj h) fill_ne_error
    split at h
    · cases h
    next stmt rest _ =>
    cases stmt with
    | bread r n => cases h
    | copy r₁ r₂ =>
      simp only [exec] at h
      split at h
      · exact absurd (Option.some.inj h) bwrite_ne_error
      · cases h
    | head r =>
      obtain ⟨b, -, hwrite⟩ := map_eq_some_iff.mp h
      exact absurd hwrite bwrite_ne_error
    | brelse r =>
      obtain ⟨b, -, hrelease⟩ := map_eq_some_iff.mp h
      exact absurd hrelease brelse_ne_error
    | clear | finish => cases h
  | logWrite p b =>
    simp only [Clients.step, enabled_iff] at h
    exact absurd h.2 logWrite_ne_error
  | bwrite p b =>
    simp only [Clients.step, enabled_iff] at h
    exact absurd h.2 bwrite_ne_error
  | brelse p b =>
    simp only [Clients.step, enabled_iff] at h
    exact absurd h.2 brelse_ne_error
  | beginOp p =>
    simp only [Clients.step, ite_none_right_eq_some, map_eq_some_iff] at h
    obtain ⟨-, log, -, herror⟩ := h
    cases herror
  | endOp p =>
    simp only [Clients.step, enabled_iff] at h
    have herror := map_eq_error.mp h.2
    unfold Log.endOp at herror
    simp only at herror
    repeat' split at herror
    all_goals simp at herror

end Errors

/-- The blocks that keep a buffer: they are logged and not yet installed, or a process holds their buffer. -/
def occupied [Fintype B] (s : Clients P B) : Finset ℕ :=
  (Finset.univ.filter fun b => (s.owner b).isSome = true ∨ s.logged (s.cache.bufs b).blockno = true).image
    fun b => (s.cache.bufs b).blockno

/-- All buffers are busy or dirty exactly when as many blocks keep a buffer. -/
theorem full_iff [Fintype B] (hcoherent : s.Coherent) (h : s.Rooted) :
    (∀ b, (s.cache.bufs b).busy = true ∨ (s.cache.bufs b).dirty = true) ↔ Fintype.card B ≤ s.occupied.card := by
  constructor
  · intro hfull
    have hdev : ∀ b, (s.cache.bufs b).dev = ROOTDEV := by
      intro b
      rcases hfull b with hbusy | hdirty
      · rw [hcoherent.owned, Option.isSome_iff_ne_none] at hbusy
        exact h.owned b hbusy
      · exact hcoherent.dev_of_dirty hdirty
    have hall : (Finset.univ.filter fun b => (s.owner b).isSome = true ∨ s.logged (s.cache.bufs b).blockno = true) =
        Finset.univ := by
      refine Finset.filter_true_of_mem fun b _ => ?_
      rcases hfull b with hbusy | hdirty
      · exact .inl (by rwa [hcoherent.owned] at hbusy)
      · exact .inr (h.dirty b hdirty)
    have hinj : Function.Injective fun b => (s.cache.bufs b).blockno := by
      intro b b' heq
      exact hcoherent.unique ROOTDEV (s.cache.bufs b').blockno b' b (by decide) ⟨hdev b', rfl⟩ ⟨hdev b, heq⟩
    rw [occupied, hall, Finset.card_image_of_injective _ hinj, Finset.card_univ]
  · intro hcard b
    -- so many blocks are only possible if every buffer counts, and no two for the same block
    have himage : (Finset.univ.image fun b => (s.cache.bufs b).blockno).card = Fintype.card B := by
      refine le_antisymm (Finset.card_image_le.trans (Finset.card_univ (α := B)).le) (hcard.trans ?_)
      exact Finset.card_le_card (Finset.image_subset_image (Finset.filter_subset ..))
    have hinj : Set.InjOn (fun b => (s.cache.bufs b).blockno) (Finset.univ : Finset B) :=
      Finset.injOn_of_card_image_eq (himage.trans Finset.card_univ.symm)
    have hfilter :
        b ∈ Finset.univ.filter fun b => (s.owner b).isSome = true ∨ s.logged (s.cache.bufs b).blockno = true := by
      have hle := hcard.trans Finset.card_image_le
      rw [Finset.eq_univ_of_card _ (le_antisymm (Finset.card_le_univ _) hle)]
      exact Finset.mem_univ b
    rcases (Finset.mem_filter.mp hfilter).2 with howner | hlogged
    · exact .inl (by rw [hcoherent.owned, howner])
    · obtain ⟨b', hholds, hdirty⟩ := hcoherent.pinned _ (.inr hlogged)
      have hb : b' = b :=
        hinj (Finset.mem_coe.mpr (Finset.mem_univ b')) (Finset.mem_coe.mpr (Finset.mem_univ b)) hholds.2
      exact .inr (hb ▸ hdirty)

end Clients

/-- The processes that use the cache, which are in operations or not. -/
structure Load (P : Type) where
  sys : Clients P (Fin NBUF)
  inOp : P → Bool
  /-- The distinct blocks that a process has logged in its operation. -/
  ops : P → Finset ℕ

namespace Load

variable {P : Type} [DecidableEq P] {s s' : Load P} {a : Clients.Action P (Fin NBUF)}

/-- The buffers that a process holds. -/
def held (s : Load P) (p : P) : Finset (Fin NBUF) := Finset.univ.filter fun b => s.sys.owner b = some p

def lift (s : Load P) (a : Clients.Action P (Fin NBUF)) : Option (Except Panic (Load P)) :=
  (s.sys.step a).map (·.map fun sys => { s with sys := sys })

/-- One step. A process reads a block while it holds at most one buffer. Only operations change blocks, with
`log_write`, and each logs at most `MAXOPBLOCKS` distinct blocks; it ends when its process holds no buffer. -/
def step (s : Load P) (a : Clients.Action P (Fin NBUF)) : Option (Except Panic (Load P)) :=
  match a with
  | .bread p dev _ => if dev = ROOTDEV ∧ (s.held p).card ≤ 1 then s.lift a else none
  | .run _ | .brelse .. => s.lift a
  | .modify p _ _ => if s.inOp p = true then s.lift a else none
  | .bwrite .. => none
  | .logWrite p b =>
    let blocks := insert (s.sys.cache.bufs b).blockno (s.ops p)
    if s.inOp p = true ∧ blocks.card ≤ MAXOPBLOCKS then { s with ops := update s.ops p blocks }.lift a
    else none
  | .beginOp p =>
    if s.inOp p = false then
      { s with inOp := update s.inOp p true, ops := update s.ops p ∅ }.lift a
    else none
  | .endOp p =>
    if s.inOp p = true ∧ s.held p = ∅ then { s with inOp := update s.inOp p false }.lift a else none

def init (disk : ℕ → Block) (start size : ℕ) : Load P where
  sys := .init (List.finRange NBUF) disk start size
  inOp _ := false
  ops _ := ∅

/-- A step is a step of the system underneath. -/
theorem sys_of_step {r : Except Panic (Load P)} (h : s.step a = some r) :
    s.sys.step a = some (r.map Load.sys) ∧ ∀ p dev n, a = .bread p dev n → dev = ROOTDEV := by
  have hlift : ∀ {t : Load P}, t.lift a = some r → t.sys = s.sys → s.sys.step a = some (r.map Load.sys) := by
    intro t hr ht
    obtain ⟨result, hresult, rfl⟩ := map_eq_some_iff.mp hr
    rw [← ht, hresult]
    cases result <;> rfl
  cases a with
  | bread p dev n =>
    simp only [step, ite_none_right_eq_some] at h
    refine ⟨hlift h.2 rfl, fun _ _ _ heq => ?_⟩
    cases heq
    exact h.1.1
  | bwrite p b => cases h
  | run p | brelse p b => exact ⟨hlift h rfl, nofun⟩
  | modify p b data | logWrite p b | beginOp p | endOp p =>
    simp only [step, ite_none_right_eq_some] at h
    exact ⟨hlift h.2 rfl, nofun⟩

/-- In every state of every run the next step panics for want of a buffer if and only if it is that of a process that
looks for a block that is not cached, while at least `NBUF` blocks are logged and not yet installed, or held. -/
theorem bget_no_buffers_iff (disk : ℕ → Block) (start size : ℕ) {trace : List (Clients.Action P (Fin NBUF))}
    (h : Run step (init disk start size) trace s) (a : Clients.Action P (Fin NBUF)) :
    s.step a = some (.error "bget: no buffers") ↔
      ∃ p dev n dst, a = .run p ∧ s.sys.calls p = some (.get dev n dst) ∧ (∀ b, ¬ s.sys.cache.Holds dev n b) ∧
        ¬ s.sys.occupied.card < NBUF := by
  have hinv : s.sys.Inv ∧ s.sys.Rooted := by
    refine Run.invariant (P := fun _ u => u.sys.Inv ∧ u.sys.Rooted)
      ⟨Clients.Inv.init (List.nodup_finRange NBUF) (List.mem_finRange ·) disk start size, ?_⟩ ?_ h
    · refine ⟨fun _ _ hcall => (nomatch hcall), fun _ howner => absurd rfl howner, fun b hdirty => ?_⟩
      simp [init, Clients.init, Cache.binit_bufs (List.mem_finRange b)] at hdirty
    · rintro trace a t u - ⟨hinv, hrooted⟩ hstep
      obtain ⟨hsys, hdev⟩ := sys_of_step hstep
      exact ⟨(hinv.step hsys).1, hrooted.step hinv hdev hsys⟩
  have hfull := Clients.full_iff hinv.1.coherent hinv.2
  constructor
  · intro hpanic
    obtain ⟨p, dev, n, dst, rfl, hcall, hget⟩ := Clients.step_no_buffers (sys_of_step hpanic).1
    obtain ⟨r, hr, hgets⟩ := hinv.1.coherent.ordered.bget dev n
    rw [hget, Option.some.injEq] at hr
    subst hr
    cases hgets with
    | full hmiss hall => exact ⟨p, dev, n, dst, rfl, hcall, hmiss, not_lt.mpr (hfull.mp hall)⟩
  rintro ⟨p, dev, n, dst, rfl, hcall, hmiss, hcard⟩
  have hall := hfull.mpr (not_lt.mp hcard)
  obtain ⟨r, hr, hgets⟩ := hinv.1.coherent.ordered.bget dev n
  cases hgets with
  | hit b hholds hfree | wait b hholds hbusy => exact absurd hholds (hmiss b)
  | recycle b _ hfree hclean =>
    have hb := hall b
    simp [hfree, hclean] at hb
  | full _ _ => simp [step, lift, Clients.step, Clients.run, hcall, Clients.bget, hr, Except.map]

/-- A process reads one block, and logs it without a change. -/
def logBlock (p : P) (n : ℕ) (b : Fin NBUF) : List (Clients.Action P (Fin NBUF)) :=
  [.bread p ROOTDEV n, .run p, .run p, .logWrite p b, .brelse p b]

/-- Three operations log ten, ten and nine blocks, in the order of the buffers that `bget` recycles, and process 3
calls `bread` for another block. -/
def fillLog : List (Clients.Action (Fin 5) (Fin NBUF)) :=
  [.beginOp 0, .beginOp 1, .beginOp 2] ++
    (List.finRange NBUF).dropLast.flatMap (fun b : Fin NBUF => logBlock (Fin.ofNat 5 (b.val / 10)) (100 + b.val) b) ++
    [.bread 3 ROOTDEV 700]

/-- Process 3 gets the one buffer that is left. -/
theorem bget_no_buffers_iff_last_buffer : ∃ s : Load (Fin 5), Run step (init (fun _ _ => 0) 2 LOGSIZE) fillLog s ∧
    s.sys.occupied.card = NBUF - 1 ∧ s.step (.run 3) ≠ some (.error "bget: no buffers") := by
  obtain ⟨s, hrun, hcheck⟩ := run_of_check step (init (fun _ _ => 0) 2 LOGSIZE : Load (Fin 5)) fillLog
    (fun s => s.sys.occupied.card = NBUF - 1) (by decide +kernel)
  have hleft : s.sys.occupied.card = NBUF - 1 := of_decide_eq_true hcheck
  refine ⟨s, hrun, hleft, fun hpanic => ?_⟩
  obtain ⟨p, dev, n, dst, -, -, -, hcard⟩ := (bget_no_buffers_iff _ _ _ hrun (.run 3)).mp hpanic
  exact hcard (hleft ▸ by decide)

/-- Process 3 reads its block, and process 4 wants one more. -/
def fillCache : List (Clients.Action (Fin 5) (Fin NBUF)) := fillLog ++ [.run 3, .run 3, .bread 4 ROOTDEV 701]

/-- The operations are admitted and keep within their ten blocks, and each process holds at most one buffer. -/
theorem three_ops_and_a_reader_fill_the_cache : ∃ s : Load (Fin 5),
    Run step (init (fun _ _ => 0) 2 LOGSIZE) fillCache s ∧ s.step (.run 4) = some (.error "bget: no buffers") := by
  obtain ⟨s, hrun, hcheck⟩ := run_of_check step (init (fun _ _ => 0) 2 LOGSIZE) fillCache
    (fun s => haltsWith "bget: no buffers" (s.step (.run 4))) (by decide +kernel)
  exact ⟨s, hrun, eq_of_haltsWith hcheck⟩

end Load

end Xv6
