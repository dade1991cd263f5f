import Mathlib

/-!
# Fixed-size byte buffers with little-endian fields

A buffer of `n` bytes is a function on `Fin n`. Fields of any width are read and
written at byte offsets, least significant byte first. The laws say what a read
returns after a write to the same field, and that a write to one range of bytes is
invisible to reads of every disjoint range. Read as an array of bits, a buffer also
supports setting and clearing one bit.
-/

namespace Xv6.Lib

/-- A buffer of `n` bytes. -/
abbrev Buffer (n : ℕ) := Fin n → UInt8

namespace Buffer

variable {n : ℕ}

/-- Byte `i` of the buffer, zero past its end. -/
def byte (b : Buffer n) (i : ℕ) : UInt8 :=
  if h : i < n then b ⟨i, h⟩ else 0

/-- The unsigned value of the `w` bytes at offset `off`, least significant first. -/
def getLE (b : Buffer n) (off : ℕ) : ℕ → ℕ
  | 0 => 0
  | w + 1 => (byte b off).toNat + 256 * getLE b (off + 1) w

/-- Store the low `w` bytes of `v` at offset `off`. -/
def putLE (b : Buffer n) (off w v : ℕ) : Buffer n :=
  fun i => if off ≤ i.val ∧ i.val < off + w then UInt8.ofNat (v / 256 ^ (i.val - off)) else b i

/-- Store the words one after another from offset `off` on, four bytes each. -/
def putWords (b : Buffer n) (off : ℕ) : List ℕ → Buffer n
  | [] => b
  | v :: rest => putWords (putLE b off 4 v) (off + 4) rest

/-- Replace the `len` bytes at offset `off` by the bytes `src 0, src 1, ...`. -/
def splice (b : Buffer n) (off len : ℕ) (src : ℕ → UInt8) : Buffer n :=
  fun i => if off ≤ i.val ∧ i.val < off + len then src (i.val - off) else b i

variable (b : Buffer n) (off w v i j : ℕ) (words : List ℕ)

/-- A field write replaces exactly the bytes of its range. -/
theorem byte_putLE (hi : i < n) : byte (putLE b off w v) i =
      if off ≤ i ∧ i < off + w then UInt8.ofNat (v / 256 ^ (i - off)) else byte b i := by
  simp [byte, putLE, hi]

/-- A splice replaces exactly the bytes of its range. -/
theorem byte_splice (len : ℕ) (src : ℕ → UInt8) (i : ℕ) (hi : i < n) : byte (splice b off len src) i =
      if off ≤ i ∧ i < off + len then src (i - off) else byte b i := by
  simp [byte, splice, hi]

/-- A field of `w` bytes is below `256 ^ w`. -/
theorem getLE_lt : getLE b off w < 256 ^ w := by
  induction w generalizing off with
  | zero => simp [getLE]
  | succ w ih =>
    have hbyte := (byte b off).toNat_lt
    have htail := ih (off + 1)
    rw [getLE, pow_succ]
    omega

/-- A field depends on the bytes of its range alone. -/
theorem getLE_congr {a b : Buffer n} (h : ∀ i, off ≤ i → i < off + w → byte a i = byte b i) :
    getLE a off w = getLE b off w := by
  induction w generalizing off with
  | zero => rfl
  | succ w ih =>
    rw [getLE, getLE, h off le_rfl (by omega), ih (off + 1)]
    intro i hlo hhi
    exact h i (by omega) (by omega)

/-- Writing a field leaves every disjoint field as it was. -/
theorem getLE_putLE_of_disjoint (off' w' : ℕ) (h : off + w ≤ off' ∨ off' + w' ≤ off) :
    getLE (putLE b off w v) off' w' = getLE b off' w' := by
  apply getLE_congr
  intro i hlo hhi
  by_cases hi : i < n
  · rw [byte_putLE b off w v i hi, if_neg (by omega)]
  · simp [byte, hi]

/-- A field whose bytes are the base-256 digits of `v` has the value `v` cut to its width. -/
theorem getLE_eq_mod (h : ∀ i < w, byte b (off + i) = UInt8.ofNat (v / 256 ^ i)) : getLE b off w = v % 256 ^ w := by
  induction w generalizing off v with
  | zero => simp [getLE, Nat.mod_one]
  | succ w ih =>
    have hhead : byte b off = UInt8.ofNat v := by simpa using h 0 (by omega)
    have htail : getLE b (off + 1) w = v / 256 % 256 ^ w := by
      apply ih
      intro i hi
      rw [Nat.add_right_comm, Nat.add_assoc, h (i + 1) (by omega), pow_succ', Nat.div_div_eq_div_mul]
    rw [getLE, htail, hhead, pow_succ', Nat.mod_mul]
    simp

/-- Reading a field back returns the low bytes that were written. -/
theorem getLE_putLE (hfit : off + w ≤ n) : getLE (putLE b off w v) off w = v % 256 ^ w := by
  apply getLE_eq_mod
  intro i hi
  rw [byte_putLE b off w v (off + i) (by omega), if_pos (by omega), Nat.add_sub_cancel_left]

/-- A byte outside a field is not changed by writing the field. -/
theorem byte_putLE_of_outside (h : i < off ∨ off + w ≤ i) : byte (putLE b off w v) i = byte b i := by
  by_cases hi : i < n
  · rw [byte_putLE b off w v i hi, if_neg (by omega)]
  · simp [byte, hi]

/-- A byte outside a run of words is not changed by writing them. -/
theorem byte_putWords_of_outside (i : ℕ) (h : i < off ∨ off + 4 * words.length ≤ i) :
    byte (putWords b off words) i = byte b i := by
  induction words generalizing b off with
  | nil => rfl
  | cons v rest ih =>
    rw [List.length_cons] at h
    rw [putWords, ih _ _ (by omega), byte_putLE_of_outside _ _ _ _ _ (by omega)]

/-- Writing a run of words leaves every disjoint field as it was. -/
theorem getLE_putWords_of_disjoint (off' w' : ℕ) (h : off + 4 * words.length ≤ off' ∨ off' + w' ≤ off) :
    getLE (putWords b off words) off' w' = getLE b off' w' := by
  apply getLE_congr
  intro i hlo hhi
  exact byte_putWords_of_outside b off words i (by omega)

/-- Each word of a run reads back as it was written. -/
theorem getLE_putWords (hfit : off + 4 * words.length ≤ n) (j : ℕ) (hj : j < words.length) :
    getLE (putWords b off words) (off + 4 * j) 4 = words[j] % 2 ^ 32 := by
  induction words generalizing b off j with
  | nil => simp at hj
  | cons v rest ih =>
    rw [List.length_cons] at hfit hj
    cases j with
    | zero =>
      rw [putWords, getLE_putWords_of_disjoint _ _ _ _ _ (by omega), Nat.mul_zero, Nat.add_zero,
        getLE_putLE _ _ _ _ (by omega)]
      rfl
    | succ j =>
      rw [putWords, show off + 4 * (j + 1) = off + 4 + 4 * j by omega, ih _ _ (by omega) j (by omega)]
      rfl

/-- The mask `1 << (i % 8)` of bit `i` in its byte. -/
def mask (i : ℕ) : UInt8 := 1 <<< UInt8.ofNat (i % 8)

/-- Bit `i` of the buffer, least significant bit of each byte first. -/
def bit (b : Buffer n) (i : ℕ) : Bool := byte b (i / 8) &&& mask i != 0

/-- Set bit `i`. -/
def setBit (b : Buffer n) (i : ℕ) : Buffer n :=
  fun j => if j.val = i / 8 then b j ||| mask i else b j

/-- Clear bit `i`. -/
def clearBit (b : Buffer n) (i : ℕ) : Buffer n :=
  fun j => if j.val = i / 8 then b j &&& ~~~mask i else b j

/-- The masks of two bits of one byte have no bit in common. -/
theorem mask_and_mask_of_ne (h : i % 8 ≠ j % 8) : mask i &&& mask j = 0 := by
  have hall : ∀ a b : Fin 8, a ≠ b → (1 <<< UInt8.ofNat a.val) &&& (1 <<< UInt8.ofNat b.val) = (0 : UInt8) := by
    decide
  exact hall ⟨i % 8, Nat.mod_lt _ (by decide)⟩ ⟨j % 8, Nat.mod_lt _ (by decide)⟩ (by simpa using h)

/-- A mask survives the complement of the mask of another bit. -/
theorem compl_mask_and_mask_of_ne (h : i % 8 ≠ j % 8) : ~~~mask i &&& mask j = mask j := by
  have hall : ∀ a b : Fin 8, a ≠ b →
      ~~~(1 <<< UInt8.ofNat a.val) &&& (1 <<< UInt8.ofNat b.val) = (1 <<< UInt8.ofNat b.val : UInt8) := by
    decide
  exact hall ⟨i % 8, Nat.mod_lt _ (by decide)⟩ ⟨j % 8, Nat.mod_lt _ (by decide)⟩ (by simpa using h)

theorem mask_ne_zero : mask i ≠ 0 := by
  have hall : ∀ a : Fin 8, (1 <<< UInt8.ofNat a.val : UInt8) ≠ 0 := by decide
  exact hall ⟨i % 8, Nat.mod_lt _ (by decide)⟩

theorem or_and_distrib (x y z : UInt8) : (x ||| y) &&& z = (x &&& z) ||| (y &&& z) := by
  apply UInt8.toBitVec_inj.mp
  ext k hk
  simp [Bool.and_or_distrib_right]

theorem byte_setBit (k : ℕ) (hk : k < n) :
    byte (setBit b i) k = if k = i / 8 then byte b k ||| mask i else byte b k := by
  simp [byte, setBit, hk]

theorem byte_clearBit (k : ℕ) (hk : k < n) :
    byte (clearBit b i) k = if k = i / 8 then byte b k &&& ~~~mask i else byte b k := by
  simp [byte, clearBit, hk]

/-- Setting a bit sets that bit and no other. -/
theorem bit_setBit (hj : j < 8 * n) : bit (setBit b i) j = (decide (j = i) || bit b j) := by
  rw [bit, bit, byte_setBit b i (j / 8) (by omega)]
  split
  · next hbyte =>
    rw [or_and_distrib]
    by_cases hji : j = i
    · subst hji
      have hself : byte b (j / 8) &&& mask j ||| mask j = mask j := by
        apply UInt8.toBitVec_inj.mp
        ext k hk
        simp
      simpa [hself] using mask_ne_zero j
    · rw [mask_and_mask_of_ne i j (by omega)]
      simp [hji]
  · next hbyte =>
    have hji : j ≠ i := fun h => hbyte (h ▸ rfl)
    simp [hji]

/-- Clearing a bit clears that bit and no other. -/
theorem bit_clearBit (hj : j < 8 * n) : bit (clearBit b i) j = (!decide (j = i) && bit b j) := by
  rw [bit, bit, byte_clearBit b i (j / 8) (by omega)]
  split
  · next hbyte =>
    rw [UInt8.and_assoc]
    by_cases hji : j = i
    · subst hji
      simp
    · rw [compl_mask_and_mask_of_ne i j (by omega)]
      simp [hji]
  · next hbyte =>
    have hji : j ≠ i := fun h => hbyte (h ▸ rfl)
    simp [hji]

end Buffer

end Xv6.Lib
