import Mathlib.Tactic

/-!
# Byte buffers and little-endian words

A buffer is a function giving the byte at each offset; how much of it is meaningful is up to the
code that uses it. `memcpy` is the only way a buffer changes, and words of two and four bytes are
read little-endian.
-/

/-- A byte buffer. -/
abbrev Bytes := ℕ → UInt8

namespace Bytes

/-- The buffer of zero bytes. -/
def zero : Bytes := fun _ ↦ 0

/-- Copy `len` bytes of `src` from offset `s` over `dst` at offset `d`. -/
def memcpy (dst : Bytes) (d : ℕ) (src : Bytes) (s len : ℕ) : Bytes := fun i ↦
  if d ≤ i ∧ i < d + len then src (s + (i - d)) else dst i

/-- A buffer with the given bytes. -/
def ofList (l : List UInt8) : Bytes := fun i ↦ l.getD i 0

/-- The first `n` bytes of a buffer. -/
def toList (b : Bytes) (n : ℕ) : List UInt8 := (List.range n).map b

/-- Byte `i` of the little-endian representation of `n`. -/
def leByte (n i : ℕ) : UInt8 := UInt8.ofNat (n / 256 ^ i)

/-- The little-endian representation of `n`, as a buffer. -/
def le (n : ℕ) : Bytes := leByte n

/-- The two-byte word at an offset. -/
def read16 (b : Bytes) (off : ℕ) : ℕ := (b off).toNat + 256 * (b (off + 1)).toNat

/-- The four-byte word at an offset. -/
def read32 (b : Bytes) (off : ℕ) : ℕ :=
  (b off).toNat + 256 * (b (off + 1)).toNat + 65536 * (b (off + 2)).toNat
    + 16777216 * (b (off + 3)).toNat

theorem getElem?_toList (b : Bytes) (n i : ℕ) :
    (toList b n)[i]? = if i < n then some (b i) else none := by
  rw [toList, List.getElem?_map]
  by_cases hi : i < n
  · rw [List.getElem?_range hi, if_pos hi, Option.map_some]
  · rw [List.getElem?_eq_none (by simpa using hi), if_neg hi, Option.map_none]

/-! ## Copying -/

theorem memcpy_of_mem {dst src : Bytes} {d s len i : ℕ} (h₁ : d ≤ i) (h₂ : i < d + len) :
    memcpy dst d src s len i = src (s + (i - d)) := if_pos ⟨h₁, h₂⟩

theorem memcpy_of_notMem {dst src : Bytes} {d s len i : ℕ} (h : i < d ∨ d + len ≤ i) :
    memcpy dst d src s len i = dst i := if_neg (by omega)

@[simp] theorem memcpy_zero_len (dst src : Bytes) (d s : ℕ) : memcpy dst d src s 0 = dst := by
  funext i
  exact memcpy_of_notMem (by omega)

/-- Copying out of a freshly copied region copies out of its source. -/
theorem memcpy_memcpy_src (dst b src : Bytes) {d s len n : ℕ} (h : s + len ≤ n) :
    memcpy dst d (memcpy b 0 src 0 n) s len = memcpy dst d src s len := by
  funext i
  by_cases hi : d ≤ i ∧ i < d + len
  · rw [memcpy_of_mem hi.1 hi.2, memcpy_of_mem hi.1 hi.2, memcpy_of_mem (by omega) (by omega),
      Nat.zero_add, Nat.sub_zero]
  · rw [memcpy_of_notMem (by omega), memcpy_of_notMem (by omega)]

/-- Copying a region in two consecutive parts copies the region. -/
theorem memcpy_memcpy_append (dst src : Bytes) (d s len len' : ℕ) :
    memcpy (memcpy dst d src s len) (d + len) src (s + len) len'
      = memcpy dst d src s (len + len') := by
  funext i
  by_cases h : d + len ≤ i ∧ i < d + len + len'
  · rw [memcpy_of_mem h.1 h.2, memcpy_of_mem (by omega) (by omega)]
    congr 1
    omega
  · rw [memcpy_of_notMem (by omega)]
    by_cases h' : d ≤ i ∧ i < d + len
    · rw [memcpy_of_mem h'.1 h'.2, memcpy_of_mem (by omega) (by omega)]
    · rw [memcpy_of_notMem (by omega), memcpy_of_notMem (by omega)]

/-- Reading a region into a scratch buffer, overwriting part of it and writing the region back
overwrites that part of the region. -/
theorem memcpy_writeback (blk b src : Bytes) {d s len n : ℕ} (h : d + len ≤ n) :
    memcpy blk 0 (memcpy (memcpy b 0 blk 0 n) d src s len) 0 n = memcpy blk d src s len := by
  funext i
  simp only [memcpy, Nat.zero_add, Nat.sub_zero, Nat.zero_le, true_and]
  split_ifs <;> first | rfl | omega

@[simp] theorem zero_apply (i : ℕ) : zero i = 0 := rfl

/-! ## Words -/

theorem leByte_toNat (n i : ℕ) : (leByte n i).toNat = n / 256 ^ i % 256 := by
  simp [leByte]

theorem read32_lt (b : Bytes) (off : ℕ) : read32 b off < 2 ^ 32 := by
  have h₀ := (b off).toNat_lt
  have h₁ := (b (off + 1)).toNat_lt
  have h₂ := (b (off + 2)).toNat_lt
  have h₃ := (b (off + 3)).toNat_lt
  rw [read32]
  omega

theorem read16_lt (b : Bytes) (off : ℕ) : read16 b off < 2 ^ 16 := by
  have h₀ := (b off).toNat_lt
  have h₁ := (b (off + 1)).toNat_lt
  rw [read16]
  omega

theorem read32_congr {b c : Bytes} {o : ℕ} (h : ∀ i, o ≤ i → i < o + 4 → b i = c i) :
    read32 b o = read32 c o := by
  rw [read32, read32, h o (by omega) (by omega), h (o + 1) (by omega) (by omega),
    h (o + 2) (by omega) (by omega), h (o + 3) (by omega) (by omega)]

theorem read16_congr {b c : Bytes} {o : ℕ} (h : ∀ i, o ≤ i → i < o + 2 → b i = c i) :
    read16 b o = read16 c o := by
  rw [read16, read16, h o (by omega) (by omega), h (o + 1) (by omega) (by omega)]

/-- A buffer that holds the four bytes of `n` at an offset reads back as `n`. -/
theorem read32_of_le {b : Bytes} {off n : ℕ} (hn : n < 2 ^ 32)
    (h : ∀ i < 4, b (off + i) = leByte n i) : read32 b off = n := by
  have h₀ := h 0 (by omega)
  have h₁ := h 1 (by omega)
  have h₂ := h 2 (by omega)
  have h₃ := h 3 (by omega)
  rw [Nat.add_zero] at h₀
  rw [read32, h₀, h₁, h₂, h₃]
  simp only [leByte_toNat]
  omega

/-- A buffer that holds the two bytes of `n` at an offset reads back as `n`. -/
theorem read16_of_le {b : Bytes} {off n : ℕ} (hn : n < 2 ^ 16)
    (h : ∀ i < 2, b (off + i) = leByte n i) : read16 b off = n := by
  have h₀ := h 0 (by omega)
  have h₁ := h 1 (by omega)
  rw [Nat.add_zero] at h₀
  rw [read16, h₀, h₁]
  simp only [leByte_toNat]
  omega

/-- The bytes of a word that was read are the bytes it was read from. -/
theorem leByte_read32 (b : Bytes) (off : ℕ) {i : ℕ} (hi : i < 4) :
    leByte (read32 b off) i = b (off + i) := by
  have h₀ := (b off).toNat_lt
  have h₁ := (b (off + 1)).toNat_lt
  have h₂ := (b (off + 2)).toNat_lt
  have h₃ := (b (off + 3)).toNat_lt
  apply UInt8.toNat_inj.mp
  rw [leByte_toNat, read32]
  interval_cases i
  · simp only [Nat.pow_zero, Nat.div_one, Nat.add_zero]
    omega
  all_goals norm_num; omega

theorem leByte_read16 (b : Bytes) (off : ℕ) {i : ℕ} (hi : i < 2) :
    leByte (read16 b off) i = b (off + i) := by
  have h₀ := (b off).toNat_lt
  have h₁ := (b (off + 1)).toNat_lt
  apply UInt8.toNat_inj.mp
  rw [leByte_toNat, read16]
  interval_cases i
  · simp only [Nat.pow_zero, Nat.div_one, Nat.add_zero]
    omega
  · norm_num
    omega

@[simp] theorem read32_zero (off : ℕ) : read32 zero off = 0 := rfl

theorem read32_memcpy_le (b : Bytes) (off : ℕ) {n : ℕ} (hn : n < 2 ^ 32) :
    read32 (memcpy b off (le n) 0 4) off = n := by
  refine read32_of_le hn fun i hi ↦ ?_
  rw [memcpy_of_mem (by omega) (by omega)]
  simp [le]

/-- Words at a different four-byte slot are untouched by a copy of four bytes. -/
theorem read32_memcpy_of_ne (b src : Bytes) (s : ℕ) {i j : ℕ} (h : i ≠ j) :
    read32 (memcpy b (4 * i) src s 4) (4 * j) = read32 b (4 * j) := by
  refine read32_congr fun k h₁ h₂ ↦ memcpy_of_notMem ?_
  omega

end Bytes
