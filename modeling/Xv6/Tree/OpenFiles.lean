import Xv6.Tree.Boot

/-!
# Open files over whole runs

No directory is ever open for writing, so the content of a referenced inode changes only by the bytes that are
written to it. With the life of inodes, this says what a process that holds a file open can rely on, whatever
other processes do.
-/

namespace Xv6.Tree

open Lib
open Function (update update_self update_of_ne)

section Table

/-- Every open file of the table `t'` was open in `t`, for the same inode and mode. -/
def Inherits (t t' : Fin NFILE → File) : Prop := ∀ f, (t' f).type = .FD_INODE →
  (t f).type = .FD_INODE ∧ (t' f).ip = (t f).ip ∧ (t' f).writable = (t f).writable

variable {t t' t'' : Fin NFILE → File} {s s' : State} {f : Fin NFILE} {file : File}

theorem Inherits.refl (t : Fin NFILE → File) : Inherits t t := fun _ htype => ⟨htype, rfl, rfl⟩

theorem Inherits.trans (h : Inherits t t') (h' : Inherits t' t'') : Inherits t t'' := by
  intro f htype
  obtain ⟨htype', hip', hmode'⟩ := h' f htype
  obtain ⟨htype₀, hip, hmode⟩ := h f htype'
  exact ⟨htype₀, hip'.trans hip, hmode'.trans hmode⟩

/-- One structure of the table changes. -/
theorem Inherits.update (h : file.type = .FD_INODE →
      (t f).type = .FD_INODE ∧ file.ip = (t f).ip ∧ file.writable = (t f).writable) :
    Inherits t (update t f file) := by
  intro g htype
  by_cases hg : g = f
  · subst hg
    rw [update_self] at htype ⊢
    exact h htype
  · rw [update_of_ne hg] at htype ⊢
    exact ⟨htype, rfl, rfl⟩

theorem fileread_inherits {n : UInt32} {io : ℤ × List UInt8} :
    Ensures (fileread s f n io) fun out => Inherits s.ftable out.2.ftable := by
  refine .ite (fun _ => .ok (.refl _)) fun _ => ?_
  split
  · exact .ok (.refl _)
  · exact .seq fun _ => .seq fun _ => .seq fun _ => .ok (.update fun htype => ⟨htype, rfl, rfl⟩)
  · exact .error _

variable {io : ℤ} {bytes : List UInt8}

theorem writeChunk_inherits : Ensures (writeChunk s f bytes io) fun out => Inherits s.ftable out.2.ftable :=
  .seq fun _ => .seq fun _ => .seq fun _ => .ok (.update fun htype => ⟨htype, rfl, rfl⟩)

theorem filewriteLoop_inherits (fuel : ℕ) :
    Ensures (filewriteLoop f io fuel s bytes) fun out => Inherits s.ftable out.2.ftable := by
  induction fuel generalizing s bytes with
  | zero => exact .ok (.refl _)
  | succ fuel ih =>
    refine .ite (fun _ => .ok (.refl _)) fun _ => writeChunk_inherits.bind fun out h => ?_
    exact .ite (fun _ => .ok h) fun _ => .ite (fun _ => .error _) fun _ => ih.imp fun _ h' => h.trans h'

theorem filewrite_inherits {n : ℤ} :
    Ensures (filewrite s f bytes n io) fun out => Inherits s.ftable out.2.ftable := by
  refine .ite (fun _ => .ok (.refl _)) fun _ => ?_
  split
  · exact .ok (.refl _)
  · exact (filewriteLoop_inherits _).bind fun _ h => .ok h
  · exact .error _

theorem filestat_inherits : Ensures (filestat s f) fun out => Inherits s.ftable out.2.ftable := by
  exact .ite (fun _ => .seq fun _ => .seq fun _ => .ok (.refl _)) fun _ => .ok (.refl _)

theorem fileclose_inherits : Ensures (fileclose s f) fun s' => Inherits s.ftable s'.ftable := by
  have hunused : Inherits s.ftable (update s.ftable f (s.ftable f).unused) := .update nofun
  refine .ite (fun _ => .error _) fun _ => ?_
  split
  · exact .ok (.update fun htype => ⟨htype, rfl, rfl⟩)
  · exact .ite (fun _ => .seq fun _ => .ok hunused) fun _ => .ok hunused

theorem filedup_inherits : Ensures (filedup s f) fun s' => Inherits s.ftable s'.ftable := by
  exact .ite (fun _ => .error _) fun _ => .ok (.update fun htype => ⟨htype, rfl, rfl⟩)

theorem dupFiles_inherits (files : List (Fin NFILE)) :
    Ensures (dupFiles s files) fun s' => Inherits s.ftable s'.ftable := by
  induction files generalizing s with
  | nil => exact .ok (.refl _)
  | cons f rest ih => exact filedup_inherits.bind fun _ h => ih.imp fun _ h' => h.trans h'

theorem closeFiles_inherits (files : List (Fin NFILE)) :
    Ensures (closeFiles s files) fun s' => Inherits s.ftable s'.ftable := by
  induction files generalizing s with
  | nil => exact .ok (.refl _)
  | cons f rest ih => exact fileclose_inherits.bind fun _ h => ih.imp fun _ h' => h.trans h'

end Table

section Create

variable {c c' : Core} {i j dp : ℕ}

theorem iput_nodes (h : iput c i = .ok c') (hj : j ≠ i) : c'.nodes j = c.nodes j := by
  obtain ⟨-, -, -, rfl⟩ | ⟨-, rfl⟩ := iput_cases h
  · simp [Core.release, hj]
  · rfl

variable {name : List UInt8}

theorem dirlookup_nodes : Ensures (dirlookup c dp name) fun out =>
    out.2.nodes = c.nodes ∧ (c.nodes dp).type = T_DIR := by
  refine .ite (fun _ => .error _) fun htype => ?_
  have hdir := not_not.mp htype
  split
  · exact .ok ⟨rfl, hdir⟩
  · exact iget_agrees.bind fun _ h => .ok ⟨h.nodes, hdir⟩

/-- An entry that is added changes no type. -/
theorem dirlink_type {inum : ℕ} (j : ℕ) :
    Ensures (dirlink c dp name inum) fun out => 0 ≤ out.1 → (out.2.nodes j).type = (c.nodes j).type := by
  refine dirlookup_nodes.bind ?_
  rintro ⟨found, c₁⟩ ⟨hnodes, -⟩
  cases found with
  | some entry => exact .seq fun _ => .ok fun hpos => absurd hpos (by simp)
  | none =>
    have hwrite : Ensures (writeEntry c₁ dp (emptyEntry (c₁.nodes dp).entries) ⟨inum, name⟩) fun out =>
        (out.2.nodes j).type = (c₁.nodes j).type := by
      refine .ite (fun _ => .ok rfl) fun _ => .ite (fun _ => .error _) fun _ => .ok ?_
      by_cases hj : j = dp
      · subst hj
        simp
      · simp [hj]
    refine hwrite.bind fun out htype => .ite (fun _ => .error _) fun _ => .ok fun _ => ?_
    rw [htype]
    exact congrArg (fun nodes => (nodes j).type) hnodes

/-- `create` for a file returns a file. -/
theorem create_type {cwd : ℕ} {path : List UInt8} {major minor : Int16} :
    Ensures (create c cwd path T_FILE major minor) fun out => ∀ ip ∈ out.1, (out.2.nodes ip).type = T_FILE := by
  refine .seq ?_
  rintro ⟨parent, c₁⟩
  cases parent with
  | none => exact .ok nofun
  | some entry =>
    obtain ⟨dp, name⟩ := entry
    refine .seq fun c₂ => dirlookup_nodes.bind ?_
    rintro ⟨found, c₃⟩ ⟨hnodes, hdir⟩
    cases found with
    | some entry =>
      refine .seq fun _ => .seq fun _ => .ite (fun htype => .ok fun ip hip => ?_) fun _ => .seq fun _ => .ok nofun
      cases hip
      exact htype.2
    | none =>
      have halloc : Ensures (ialloc c₃ T_FILE) fun out => out.1 ≠ dp ∧ (out.2.nodes out.1).type = T_FILE := by
        rintro ⟨ip, c₄⟩ hok
        obtain ⟨-, hfree, hget⟩ := ialloc_ok hok
        refine ⟨fun heq => ?_, ?_⟩
        · rw [show ip = dp from heq, show c₃.nodes = c₂.nodes from hnodes, hdir] at hfree
          exact absurd hfree (by decide)
        · rw [(iget_agrees c₄ hget).nodes]
          simp
      refine halloc.bind ?_
      rintro ⟨ip, c₄⟩ ⟨hne, htype⟩
      refine ilock_agrees.bind fun c₅ hlock => ?_
      refine Ensures.bind (.ite (fun hdir => absurd hdir (by decide)) fun _ => .ok rfl) fun c₆ hc₆ => ?_
      refine (dirlink_type ip).bind fun out hlink => .ite (fun _ => .error _) fun hr => ?_
      have hput : Ensures (iunlockput out.2 dp) fun c₇ => c₇.nodes ip = out.2.nodes ip :=
        iunlock_agrees.bind fun c₇ hunlock c₈ hok => by rw [iput_nodes hok hne, hunlock.nodes]
      refine hput.bind fun c₇ hsame => .ok fun ip' hip => ?_
      rw [← Option.some.inj hip, hsame, hlink (by omega), ← hc₆]
      simpa [hlock.nodes] using htype

end Create

/-- No directory is open for writing. -/
def FilesOnly (s : State) : Prop := ∀ f, (s.ftable f).type = .FD_INODE → (s.ftable f).writable = true →
  (s.core.nodes (s.ftable f).ip).type ≠ T_DIR

/-- Every file that is open for writing was so before, or its inode is not a directory. -/
def Opens (t : Fin NFILE → File) (s : State) : Prop := ∀ f, (s.ftable f).type = .FD_INODE →
  (s.ftable f).writable = true → ((t f).type = .FD_INODE ∧ (s.ftable f).ip = (t f).ip ∧ (t f).writable = true) ∨
    (s.core.nodes (s.ftable f).ip).type ≠ T_DIR

section Opens

variable {s s' : State} {pid : Fin NPROC} {proc : Proc} {f : Fin NFILE}

theorem Inherits.opens {t : Fin NFILE → File} (h : Inherits t s.ftable) : Opens t s := by
  intro f htype hmode
  obtain ⟨htype', hip, hmode'⟩ := h f htype
  exact .inl ⟨htype', hip, hmode'.symm.trans hmode⟩

theorem openFile_opens {ip omode : ℕ}
    (hplain : (File.opened ip omode).writable = true → (s.core.nodes ip).type ≠ T_DIR) :
    Ensures (openFile s pid proc ip omode) fun out => Opens s.ftable out.2 := by
  have hbad : ∀ s', Inherits s.ftable s'.ftable → Ensures (openBad s' ip) fun out => Opens s.ftable out.2 :=
    fun s' h => .seq fun _ => .ok (Inherits.opens h)
  unfold openFile
  split
  · exact hbad s (.refl _)
  next f hf =>
  have hset : Inherits s.ftable (s.setFile f ((s.ftable f).setRef 1 Nat.one_pos)).ftable :=
    .update fun htype => ⟨htype, rfl, rfl⟩
  split
  · exact fileclose_inherits.bind fun s₁ h => hbad s₁ (hset.trans h)
  next fd _ =>
  refine iunlock_agrees.bind fun c₁ hagrees => .ok fun g htype hmode => ?_
  by_cases hg : g = f
  · subst hg
    simp only [State.setFile, update_self] at hmode ⊢
    refine .inr ?_
    change (c₁.nodes ip).type ≠ T_DIR
    rw [hagrees.nodes]
    exact hplain hmode
  · have hsame : ({ (s.setFile f ((s.ftable f).setRef 1 Nat.one_pos)).setProc pid (proc.setFd fd (some f)) with
        core := endOp c₁ }.setFile f (.opened ip omode)).ftable g = s.ftable g := by
      simp [State.setFile, State.setProc, hg]
    rw [hsame] at htype hmode ⊢
    exact .inl ⟨htype, rfl, hmode⟩

theorem sysOpen_opens {path : List UInt8} {omode : ℕ} :
    Ensures (sysOpen s pid proc path omode) fun out => Opens s.ftable out.2 := by
  have hsame : ∀ c, Opens s.ftable { s with core := c } := fun c => Inherits.opens (.refl _)
  refine .ite (fun _ => ?_) fun _ => ?_
  · refine create_type.bind ?_
    rintro ⟨found, c₁⟩ htype
    cases found with
    | none => exact .ok (hsame _)
    | some ip =>
      refine openFile_opens (s := { s with core := c₁ }) fun _ => ?_
      rw [show (c₁.nodes ip).type = T_FILE from htype ip rfl]
      decide
  refine .seq ?_
  rintro ⟨found, c₁⟩
  cases found with
  | none => exact .ok (hsame _)
  | some ip =>
    refine .seq fun c₂ => .ite (fun _ => .seq fun _ => .ok (hsame _)) fun hdir => ?_
    refine openFile_opens (s := { s with core := c₂ }) fun hmode htype => hdir ⟨htype, ?_⟩
    rintro rfl
    simp [File.opened] at hmode

/-- What an action does to the table of files. -/
theorem action_opens (a : Action) : Ensures (a.run s pid proc) (Opens s.ftable) := by
  have hcore : ∀ result, Ensures (onCore s result) fun out => Opens s.ftable out.2 :=
    fun result => Ensures.map fun _ _ => Inherits.opens (.refl _)
  have hfile : ∀ {X : Type} {fd : ℤ} {call : Fin NFILE → Except Panic (X × State)},
      (∀ f, Ensures (call f) fun out => Inherits s.ftable out.2.ftable) →
        Ensures (onFile s proc fd call) (Opens s.ftable) := by
    intro X fd call hcall
    unfold onFile
    split
    · exact .ok (Inherits.opens (.refl _))
    · exact Ensures.map ((hcall _).imp fun _ h => h.opens)
  cases a with
  | call syscall =>
    refine Ensures.map ?_
    cases syscall with
    | «open» path omode => exact sysOpen_opens
    | mkdir path | mknod path major minor | link old new | unlink path => exact hcore _
    | chdir path =>
      cases path with
      | none => exact .ok (Inherits.opens (.refl _))
      | some path =>
        refine .seq ?_
        rintro ⟨found, c₁⟩
        cases found with
        | none => exact .ok (Inherits.opens (.refl _))
        | some ip =>
          exact .seq fun _ => .ite (fun _ => .seq fun _ => .ok (Inherits.opens (.refl _))) fun _ =>
            .seq fun _ => .seq fun _ => .ok (Inherits.opens (.refl _))
    | close fd =>
      change Ensures (sysClose s pid proc fd) _
      unfold sysClose
      split
      · exact .ok (Inherits.opens (.refl _))
      · exact fileclose_inherits.bind fun _ h => .ok h.opens
  | dup fd =>
    refine Ensures.map ?_
    unfold sysDup
    split
    · exact .ok (Inherits.opens (.refl _))
    · split
      · exact .ok (Inherits.opens (.refl _))
      · exact filedup_inherits.bind fun _ h => .ok h.opens
  | fork np =>
    refine Ensures.map ?_
    unfold fork
    split
    · exact .ok (Inherits.opens (.refl _))
    · exact (dupFiles_inherits _).bind fun _ h => .ok (Inherits.opens h)
  | read fd n io => exact hfile fun _ => fileread_inherits
  | write fd bytes n io => exact hfile fun _ => filewrite_inherits
  | fstat fd => exact hfile fun _ => filestat_inherits
  | exec path reads io loaded started => exact Ensures.map (hcore _)
  | exit =>
    exact .ite (fun _ => .error _) fun _ => (closeFiles_inherits _).bind fun _ h => .seq fun _ => .ok (Inherits.opens h)

end Opens

/-- What holds between calls. -/
structure Between (s : State) : Prop where
  alive : Alive ⟨[], [], false, s.holders⟩ s.core
  files : FilesOnly s

theorem Source.between (src : Source) (alive : Fin NPROC → Bool) : Between (src.boot alive) where
  alive := (src.consistent_boot alive True).alive
  files f htype := by cases htype

variable {s : State} {i : ℕ} {events : List Event} {c : Core}

/-- An action that writes to a file writes to one that is not a directory. -/
theorem Between.target {proc : Proc} (h : Between s) {a : Action} (htarget : a.target s proc = some i) :
    0 < s.holders i ∧ (s.core.nodes i).type ≠ T_DIR := by
  cases a with
  | write fd bytes n io =>
    obtain ⟨f, -, hf⟩ := Option.bind_eq_some_iff.mp htarget
    split_ifs at hf with hopen
    cases hf
    exact ⟨le_holders_of_file hopen.1, h.files f hopen.1 hopen.2⟩
  | _ => cases htarget

/-- What an action does to the inodes. -/
theorem Between.act {s' : State} {a : Fin NPROC × Action} (h : Between s) (hact : act s a = some (.ok s')) :
    Between s' ∧ ∃ proc, s.procs a.1 = some proc ∧
      Since s.core s.holders (fun i => a.2.target s proc = some i) s'.core := by
  obtain ⟨proc, hproc, hslot, hrun⟩ := act_eq_ok hact
  have htarget : ∀ i, a.2.target s proc = some i → 0 < s.holders i ∧ (s.core.nodes i).type ≠ T_DIR := fun i => h.target
  have D := Life.discipline s.core s.holders htarget
  obtain ⟨halive, hsince⟩ := D.action a.2 hproc rfl hslot (fun i hi => hi) ⟨h.alive, .refl ..⟩ s' hrun
  refine ⟨⟨halive, fun f htype hmode hdir => ?_⟩, proc, hproc, hsince⟩
  rcases action_opens a.2 s' hrun f htype hmode with ⟨htype₀, hip, hmode₀⟩ | hplain
  · have hbefore := h.files f htype₀ hmode₀
    rw [hip] at hdir
    rcases hsince.types _ (le_holders_of_file htype₀) with hsame | hzero
    · exact hbefore (hsame.symm.trans hdir)
    · exact absurd (hzero.symm.trans hdir) (by decide)
  · exact hplain hdir

/-- The writes to inode `i`, by offset and bytes. -/
def writes (i : ℕ) (events : List Event) : List (ℕ × List UInt8) :=
  events.filterMap fun
    | .write j off bytes => if j = i then some (off, bytes) else none
    | _ => none

theorem write_mem_of_mem_writes {w : ℕ × List UInt8} (h : w ∈ writes i events) : .write i w.1 w.2 ∈ events := by
  obtain ⟨e, he, hsome⟩ := List.mem_filterMap.mp h
  cases e with
  | write j off bytes =>
    dsimp only at hsome
    split_ifs at hsome with hj
    rw [← Option.some.inj hsome, ← hj]
    exact he
  | alloc j type => cases hsome
  | put j node ref freed => cases hsome

/-- An inode that is not allocated anew has the content that the writes to it leave. -/
theorem content_of_run {v v' : Inodes} (h : Run lifecycle v events v') (halloc : ∀ type, .alloc i type ∉ events)
    (hlive : (v'.view i).type ≠ 0) :
    (v'.view i).content = (writes i events).foldl (fun content w => patch content w.1 w.2) (v.view i).content := by
  induction h with
  | nil => rfl
  | @snoc events e v₁ v₂ _ hstep ih =>
    obtain ⟨-, rfl⟩ := lifecycle_eq_ok hstep
    have hbefore := ih fun type hmem => halloc type (List.mem_append_left _ hmem)
    rw [writes, List.filterMap_append, List.foldl_append, ← writes]
    cases e with
    | alloc j type =>
      have hne : i ≠ j := fun heq => halloc type (List.mem_append_right _ (by simp [heq]))
      simp only [Event.apply, update_of_ne hne] at hlive ⊢
      exact hbefore hlive
    | put j node ref freed =>
      cases freed with
      | false => exact hbefore hlive
      | true =>
        have hne : i ≠ j := by
          rintro rfl
          simp [Event.apply] at hlive
        simp only [Event.apply, if_true, update_of_ne hne] at hlive ⊢
        exact hbefore hlive
    | write j off bytes =>
      by_cases hj : i = j
      · subst hj
        simp only [Event.apply, update_self] at hlive ⊢
        simp [hbefore hlive]
      · simp only [Event.apply, update_of_ne hj] at hlive ⊢
        simpa [Ne.symm hj] using hbefore hlive

/-- What `read` returns at an offset of a file. -/
def readAt (content : List UInt8) (off n : UInt32) : ℤ × List UInt8 :=
  if content.length < off.toNat ∨ off + n < off then (-1, [])
  else (((content.drop off.toNat).take n.toNat).length, (content.drop off.toNat).take n.toNat)

theorem readi_eq {ip : ℕ} (hdev : (c.nodes ip).type ≠ T_DEV) (off n : UInt32) (io : ℤ × List UInt8) :
    readi c ip off n io = .ok (readAt (c.nodes ip).content off n, c) := by
  unfold readi readAt
  simp only [if_neg hdev, (c.nodes ip).length_content]
  split <;> rfl

theorem ilock_eq (hpos : ¬(c.cache i).ref < 1) (hbusy : (c.cache i).busy = false) (hlive : (c.nodes i).type ≠ 0) :
    ilock c i = .ok (c.setCached i { c.cache i with busy := true, valid := true }) := by
  simp [ilock, hpos, hbusy, hlive]

theorem iunlock_eq (hbusy : (c.cache i).busy = true) (hpos : ¬(c.cache i).ref < 1) :
    iunlock c i = .ok (c.setCached i { c.cache i with busy := false }) := by
  simp [iunlock, hbusy, hpos]

/-- Reading an open file returns its content. -/
theorem Between.fileread {f : Fin NFILE} (h : Between s) (htype : (s.ftable f).type = .FD_INODE)
    (hread : (s.ftable f).readable = true) (hdev : (s.core.nodes (s.ftable f).ip).type ≠ T_DEV) (n : UInt32)
    (io : ℤ × List UInt8) :
    ∃ s', fileread s f n io = .ok (readAt (s.core.nodes (s.ftable f).ip).content (s.ftable f).off n, s') ∧
      s'.core.inodes = s.core.inodes := by
  have hfirm : 0 < s.holders (s.ftable f).ip := le_holders_of_file htype
  have hok := h.alive.inode (s.ftable f).ip
  have href := hok.ref
  have hlive := hok.firm hfirm
  have hbusy : (s.core.cache (s.ftable f).ip).busy = false := by
    by_contra hbusy
    exact absurd (hok.busy.mp (by simpa using hbusy)) List.not_mem_nil
  have hpos : ¬(s.core.cache (s.ftable f).ip).ref < 1 := by
    dsimp only at href
    omega
  have hread' : ¬(!(s.ftable f).readable) = true := by simp [hread]
  unfold Tree.fileread
  dsimp only
  rw [if_neg hread', htype]
  rw [ilock_eq hpos hbusy hlive, ok_bind, readi_eq (by simpa using hdev), ok_bind,
    iunlock_eq (by simp) (by simpa using hpos), ok_bind]
  exact ⟨_, rfl, rfl⟩

/-- The calls open("f", O_CREATE | O_RDWR), write(0, "hi", 2), unlink("f"). -/
def unlinkOpen : List (Fin NPROC × Action) :=
  [(0, .call (.open [102] (O_CREATE + O_RDWR))), (0, .write 0 [104, 105] 2 0), (0, .call (.unlink [102]))]

end Xv6.Tree
