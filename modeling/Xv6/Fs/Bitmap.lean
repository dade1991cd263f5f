import Xv6.Fs.Mkfs
import Xv6.Fs.Truncate

/-!
# The free map

`balloc` and `bfree` on a free map of any number of blocks, the last of them partly used.
-/

namespace Xv6

open Lib Lib.Buffer

variable {fs fs' fs₁ : Fs} {b : ℕ}

/-- `balloc` returns the first block whose bit is clear. -/
theorem balloc_eq_ok : balloc fs = .ok (b, fs₁) ↔
    (b < fs.sb.size ∧ fs.image.inUse b = false ∧ ∀ c < b, fs.image.inUse c = true) ∧ fs₁ = fs.allocated b := by
  rcases balloc_cases fs 0 with ⟨b', hlt, hfree, hfirst, hok⟩ | ⟨hnone, herror⟩
  · rw [hok]
    constructor
    · rintro ⟨⟩
      exact ⟨⟨hlt, hfree, hfirst⟩, rfl⟩
    · rintro ⟨⟨-, hfree', hfirst'⟩, rfl⟩
      rcases lt_trichotomy b' b with hless | rfl | hmore
      · exact absurd (hfree.symm.trans (hfirst' b' hless)) Bool.false_ne_true
      · rfl
      · exact absurd (hfree'.symm.trans (hfirst b hmore)) Bool.false_ne_true
  · rw [herror]
    refine iff_of_false nofun fun h => ?_
    exact Finset.filter_eq_empty_iff.mp hnone (Finset.mem_range.mpr h.1.1) h.1.2.1

theorem balloc_eq_error : (∃ e, balloc fs = .error e) ↔ ∀ c < fs.sb.size, fs.image.inUse c = true := by
  rcases balloc_cases fs 0 with ⟨b, hlt, hfree, -, hok⟩ | ⟨hnone, herror⟩
  · rw [hok]
    refine iff_of_false (by simp) fun h => ?_
    exact absurd (hfree.symm.trans (h b hlt)) Bool.false_ne_true
  · refine iff_of_true ⟨_, herror⟩ fun c hc => ?_
    exact Bool.eq_true_of_not_eq_false (Finset.filter_eq_empty_iff.mp hnone (Finset.mem_range.mpr hc))

/-- `balloc` takes the first block whose bit is clear, whatever the bits from the size on are, sets this bit and clears
the block, and panics if there is none. `bfree` clears the bit of the block. After `balloc` it restores the free map,
unless the block was that of the superblock, which `bfree` reads. The number of blocks fits into the `int` that `balloc`
counts in. -/
theorem balloc_bfree_exact (fs : Fs) (_hsize : fs.sb.size < 2 ^ 31) : (∀ b fs₁, balloc fs = .ok (b, fs₁) →
      (b < fs.sb.size ∧ fs.image.inUse b = false ∧ ∀ c < b, fs.image.inUse c = true) ∧
      (∀ c, BBLOCK c fs.sb ≠ b → fs₁.image.inUse c = (decide (c = b) || fs.image.inUse c)) ∧
      (fs₁.disk b = fun _ => 0) ∧ (∀ x ≠ b, x ≠ BBLOCK b fs.sb → fs₁.disk x = fs.disk x) ∧
      (∀ fs' : Fs, fs'.sb = fs.sb → (∀ c < fs.sb.size, fs'.image.inUse c = fs.image.inUse c) →
        ∃ fs₁', balloc fs' = .ok (b, fs₁')) ∧
      (readsb (fs.disk 1) = fs.sb → b ≠ 1 → BBLOCK b fs.sb ≠ 1 → BBLOCK b fs.sb ≠ b → ∃ fs₂, bfree fs₁ b = .ok fs₂ ∧
        ∀ c, BBLOCK c fs.sb ≠ b → fs₂.image.inUse c = fs.image.inUse c)) ∧
    ((∃ e, balloc fs = .error e) ↔ ∀ c < fs.sb.size, fs.image.inUse c = true) ∧
    ∀ b, readsb (fs.disk 1) = fs.sb → fs.image.inUse b = true → ∃ fs₁, bfree fs b = .ok fs₁ ∧
      (∀ c, fs₁.image.inUse c = (!decide (c = b) && fs.image.inUse c)) ∧
      ∀ x ≠ BBLOCK b fs.sb, fs₁.disk x = fs.disk x := by
  refine ⟨fun b fs₁ h => ?_, balloc_eq_error, fun b hsb hb => ?_⟩
  · obtain ⟨⟨hlt, hfree, hfirst⟩, rfl⟩ := balloc_eq_ok.mp h
    have hbits : ∀ c, BBLOCK c fs.sb ≠ b → (fs.allocated b).image.inUse c = (decide (c = b) || fs.image.inUse c) :=
      fun c => fs.image.inUse_allocate
    have hblocks : ∀ x ≠ b, x ≠ BBLOCK b fs.sb → (fs.allocated b).disk x = fs.disk x :=
      fun x => fs.image.allocate_of_ne
    refine ⟨⟨hlt, hfree, hfirst⟩, hbits, fs.image.allocate_self b, hblocks, fun fs' hsb hsame => ?_,
      fun hsb hone hmap hself => ?_⟩
    · refine ⟨_, balloc_eq_ok.mpr ⟨⟨hsb ▸ hlt, (hsame b hlt).trans hfree, fun c hc => ?_⟩, rfl⟩⟩
      exact (hsame c (hc.trans hlt)).trans (hfirst c hc)
    · have hread : readsb ((fs.allocated b).disk 1) = (fs.allocated b).sb := by
        rw [hblocks 1 hone.symm hmap.symm]
        exact hsb
      have hset : (fs.allocated b).image.inUse b = true := by rw [hbits b hself, decide_eq_true rfl, Bool.true_or]
      refine ⟨_, bfree_inUse hread hset, fun c hc => ?_⟩
      rw [Fs.inUse_freed, hbits c hc]
      by_cases hcb : c = b
      · rw [hcb, hfree, decide_eq_true rfl]
        rfl
      · rw [decide_eq_false hcb]
        rfl
  · exact ⟨_, bfree_inUse hsb hb, fs.inUse_freed b, fun x => fs.freed_disk_of_ne⟩

/-- A boot block, a superblock and a free map of one byte. -/
def smallDisk (size map : UInt8) : ℕ → Block
  | 1 => fun i => if i.val = 0 then size else if i.val = 24 then 2 else 0
  | 2 => fun i => if i.val = 0 then map else 0
  | _ => fun _ => 0

/-- The file system on a small disk. -/
def smallFs (size map : UInt8) : Fs := .boot (readsb (smallDisk size map 1)) (smallDisk size map)

/-- The one free block of four is allocated and freed again. -/
theorem balloc_bfree_exact_last : ∃ fs₁ fs₂, balloc (smallFs 4 7) = .ok (3, fs₁) ∧ bfree fs₁ 3 = .ok fs₂ ∧
    ∀ c, BBLOCK c (smallFs 4 7).sb ≠ 3 → fs₂.image.inUse c = (smallFs 4 7).image.inUse c := by
  obtain ⟨⟨b, fs₁⟩, hok, hb⟩ := @ok_of_check _ _ (balloc (smallFs 4 7)) (fun out => decide (out.1 = 3))
    (by decide +kernel)
  obtain rfl : b = 3 := of_decide_eq_true hb
  obtain ⟨-, -, -, -, -, hfree⟩ := (balloc_bfree_exact (smallFs 4 7) (by decide +kernel)).1 3 fs₁ hok
  obtain ⟨fs₂, hbfree, hsame⟩ := hfree rfl (by decide) (by decide +kernel) (by decide +kernel)
  exact ⟨fs₁, fs₂, hok, hbfree, hsame⟩

/-- With the superblock's own block free, `balloc` clears the superblock, and `bfree` looks for the bit in the boot
block. -/
theorem bfree_without_superblock : ∃ fs₁, balloc (smallFs 3 5) = .ok (1, fs₁) ∧
    bfree fs₁ 1 = .error "freeing free block" := by
  obtain ⟨⟨b, fs₁⟩, hok, hcheck⟩ := @ok_of_check _ _ (balloc (smallFs 3 5))
    (fun out => decide (out.1 = 1) && haltsWith "freeing free block" (some (bfree out.2 1))) (by decide +kernel)
  obtain ⟨hb, herror⟩ := Bool.and_eq_true_iff.mp hcheck
  obtain rfl : b = 1 := of_decide_eq_true hb
  exact ⟨fs₁, hok, Option.some.inj (eq_of_haltsWith herror)⟩

end Xv6
