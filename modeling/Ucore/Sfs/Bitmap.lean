import Mathlib.Tactic
import Mathlib.Data.Finset.Card
import Ucore.Errno
import Ucore.Lib.Prog

/-!
# The bitmap of free blocks

`kern/fs/sfs/bitmap.c`: an array of 32-bit words in which a set bit marks a free index. The words
are the representation; everything above this file speaks of the set of free indices
(`Bitmap.isFree`) and of its size (`Bitmap.freeCount`).
-/

namespace Ucore

open Prog

abbrev wordBits : ℕ := 32

/-- `struct bitmap`. -/
structure Bitmap where
  nbits : ℕ
  nwords : ℕ
  map : ℕ → BitVec 32

/-- `1 << offset`. -/
def bitMask (offset : ℕ) : BitVec 32 := BitVec.twoPow 32 offset

namespace Bitmap

/-- The bit at an index, whatever `nbits` says. -/
def bit (b : Bitmap) (i : ℕ) : Bool := (b.map (i / 32)).getLsbD (i % 32)

/-- Index `i` is free. -/
def isFree (b : Bitmap) (i : ℕ) : Bool := decide (i < b.nbits) && b.bit i

/-- The number of free indices. -/
def freeCount (b : Bitmap) : ℕ := ((Finset.range b.nbits).filter fun i ↦ b.isFree i = true).card

/-- The map with the bit of `i` flipped. -/
def flip (b : Bitmap) (i : ℕ) : Bitmap :=
  { b with map := Function.update b.map (i / 32) (b.map (i / 32) ^^^ bitMask (i % 32)) }

/-- The map with the bit of `i` set. -/
def set (b : Bitmap) (i : ℕ) : Bitmap :=
  { b with map := Function.update b.map (i / 32) (b.map (i / 32) ||| bitMask (i % 32)) }

/-- The map that marks free the indices below `nbits` that satisfy `p`. -/
def ofPred (nbits : ℕ) (p : ℕ → Bool) : Bitmap where
  nbits := nbits
  nwords := (nbits + 31) / 32
  map w := (BitVec.ofBoolListLE ((List.range 32).map fun j ↦
    decide (32 * w + j < nbits) && p (32 * w + j))).setWidth 32

/-- The words just cover the bits and the padding of the last word is in use. -/
structure Wf (b : Bitmap) : Prop where
  nwords : b.nwords = (b.nbits + 31) / 32
  padding : ∀ i, b.nbits ≤ i → i < 32 * b.nwords → b.bit i = false

end Bitmap

/-! ## The operations -/

/-- The outer scan of `bitmap_alloc`: the first nonzero word. -/
def findWord (b : Bitmap) : Option ℕ := (List.range b.nwords).find? fun ix ↦ b.map ix != 0

/-- The inner scan of `bitmap_alloc`: the first set bit of a word. -/
def findOffset (word : BitVec 32) : Option ℕ :=
  (List.range wordBits).find? fun offset ↦ word &&& bitMask offset != 0

def bitmapAlloc : Prog Errno Bitmap ℕ := do
  let b ← get
  match findWord b with
  | none => fail .noMem
  | some ix =>
    match findOffset (b.map ix) with
    | none => halt
    | some offset =>
      modify fun b ↦ { b with map := Function.update b.map ix (b.map ix ^^^ bitMask offset) }
      return ix * wordBits + offset

/-- `bitmap_test`, with the range assertion of `bitmap_translate`. -/
def bitmapTest (index : ℕ) : Prog Errno Bitmap Bool := do
  let b ← get
  assert (index < b.nbits)
  return b.map (index / wordBits) &&& bitMask (index % wordBits) != 0

def bitmapFree (index : ℕ) : Prog Errno Bitmap Unit := do
  let b ← get
  assert (index < b.nbits)
  assert (b.map (index / wordBits) &&& bitMask (index % wordBits) = 0)
  modify fun b ↦ { b with
    map := Function.update b.map (index / wordBits)
      (b.map (index / wordBits) ||| bitMask (index % wordBits)) }

/-! ## Words and bits -/

theorem and_bitMask_eq_zero {w : BitVec 32} {k : ℕ} (hk : k < 32) :
    w &&& bitMask k = 0 ↔ w.getLsbD k = false := by
  rw [bitMask, BitVec.and_twoPow]
  cases hb : w.getLsbD k with
  | false => simp
  | true =>
    have hne : BitVec.twoPow 32 k ≠ 0 := by
      intro h
      have := congrArg (fun v : BitVec 32 ↦ v.getLsbD k) h
      simp [hk] at this
    simpa using hne

theorem exists_getLsbD_of_ne_zero {w : BitVec 32} (h : w ≠ 0) : ∃ k < 32, w.getLsbD k = true := by
  by_contra hno
  refine h (BitVec.eq_of_getLsbD_eq fun k hk ↦ ?_)
  have hbit : w.getLsbD k = false := by
    by_contra hc
    exact hno ⟨k, hk, by simpa using hc⟩
  rw [hbit]
  simp

namespace Bitmap

@[simp] theorem flip_nbits (b : Bitmap) (i : ℕ) : (b.flip i).nbits = b.nbits := rfl

@[simp] theorem flip_nwords (b : Bitmap) (i : ℕ) : (b.flip i).nwords = b.nwords := rfl

@[simp] theorem set_nbits (b : Bitmap) (i : ℕ) : (b.set i).nbits = b.nbits := rfl

@[simp] theorem set_nwords (b : Bitmap) (i : ℕ) : (b.set i).nwords = b.nwords := rfl

theorem bit_flip (b : Bitmap) (i j : ℕ) : (b.flip i).bit j = (b.bit j ^^ decide (j = i)) := by
  rw [bit, bit, flip]
  by_cases hw : j / 32 = i / 32
  · have hji : j = i ↔ j % 32 = i % 32 := by omega
    have h32 : i % 32 < 32 := Nat.mod_lt _ (by omega)
    simp [hw, Function.update_self, bitMask, hji, h32, eq_comm]
  · have hji : j ≠ i := fun h ↦ hw (by rw [h])
    simp [Function.update_of_ne hw, hji]

theorem bit_set (b : Bitmap) (i j : ℕ) : (b.set i).bit j = (b.bit j || decide (j = i)) := by
  rw [bit, bit, set]
  by_cases hw : j / 32 = i / 32
  · have hji : j = i ↔ j % 32 = i % 32 := by omega
    have h32 : i % 32 < 32 := Nat.mod_lt _ (by omega)
    simp [hw, Function.update_self, bitMask, hji, h32, eq_comm]
  · have hji : j ≠ i := fun h ↦ hw (by rw [h])
    simp [Function.update_of_ne hw, hji]

theorem isFree_iff {b : Bitmap} {i : ℕ} : b.isFree i = true ↔ i < b.nbits ∧ b.bit i = true := by
  simp [isFree]

theorem isFree_flip {b : Bitmap} {i : ℕ} (hi : b.isFree i = true) (j : ℕ) :
    (b.flip i).isFree j = true ↔ b.isFree j = true ∧ j ≠ i := by
  rw [isFree_iff] at hi
  rw [isFree_iff, isFree_iff, flip_nbits, bit_flip]
  by_cases hj : j = i
  · subst hj
    simp [hi.2]
  · simp [hj]

theorem isFree_set {b : Bitmap} {i : ℕ} (hi : i < b.nbits) (j : ℕ) :
    (b.set i).isFree j = true ↔ b.isFree j = true ∨ j = i := by
  rw [isFree_iff, isFree_iff, set_nbits, bit_set]
  by_cases hj : j = i
  · subst hj
    simp [hi]
  · simp [hj]

/-- Freeing the index that was just taken restores the map. -/
theorem set_flip {b : Bitmap} {i : ℕ} (hi : b.isFree i = true) : (b.flip i).set i = b := by
  rw [isFree_iff, bit] at hi
  have hw : (b.map (i / 32) ^^^ bitMask (i % 32)) ||| bitMask (i % 32) = b.map (i / 32) := by
    refine BitVec.eq_of_getLsbD_eq fun k hk ↦ ?_
    have h32 : i % 32 < 32 := Nat.mod_lt _ (by omega)
    by_cases hki : i % 32 = k
    · subst hki
      simp [bitMask, h32, hi.2]
    · simp [bitMask, hki]
  rw [set, flip]
  simp only [Function.update_self, hw, Function.update_idem, Function.update_eq_self]

theorem Wf.flip {b : Bitmap} (h : b.Wf) {i : ℕ} (hi : i < b.nbits) : (b.flip i).Wf where
  nwords := h.nwords
  padding j hj hj' := by
    rw [bit_flip, h.padding j hj hj']
    have hne : j ≠ i := by rw [flip_nbits] at hj; omega
    simp [hne]

theorem Wf.set {b : Bitmap} (h : b.Wf) {i : ℕ} (hi : i < b.nbits) : (b.set i).Wf where
  nwords := h.nwords
  padding j hj hj' := by
    rw [bit_set, h.padding j hj hj']
    have hne : j ≠ i := by rw [set_nbits] at hj; omega
    simp [hne]

theorem freeCount_flip {b : Bitmap} {i : ℕ} (hi : b.isFree i = true) :
    (b.flip i).freeCount + 1 = b.freeCount := by
  have hset : (Finset.range b.nbits).filter (fun j ↦ (b.flip i).isFree j = true)
      = ((Finset.range b.nbits).filter fun j ↦ b.isFree j = true).erase i := by
    ext j
    simp only [Finset.mem_filter, Finset.mem_range, Finset.mem_erase, isFree_flip hi]
    tauto
  rw [freeCount, flip_nbits, hset, freeCount]
  refine Finset.card_erase_add_one ?_
  simpa [hi] using (isFree_iff.mp hi).1

theorem freeCount_set {b : Bitmap} {i : ℕ} (hi : i < b.nbits) (hfree : b.isFree i = false) :
    (b.set i).freeCount = b.freeCount + 1 := by
  have hset : (Finset.range b.nbits).filter (fun j ↦ (b.set i).isFree j = true)
      = insert i ((Finset.range b.nbits).filter fun j ↦ b.isFree j = true) := by
    ext j
    simp only [Finset.mem_filter, Finset.mem_range, Finset.mem_insert, isFree_set hi]
    constructor
    · rintro ⟨hj, h | h⟩
      · exact Or.inr ⟨hj, h⟩
      · exact Or.inl h
    · rintro (rfl | ⟨hj, h⟩)
      · exact ⟨hi, Or.inr rfl⟩
      · exact ⟨hj, Or.inl h⟩
  rw [freeCount, set_nbits, hset, freeCount, Finset.card_insert_of_notMem]
  simp [hfree]

theorem bit_ofPred (nbits : ℕ) (p : ℕ → Bool) (i : ℕ) :
    (ofPred nbits p).bit i = (decide (i < nbits) && p i) := by
  have h32 : i % 32 < 32 := Nat.mod_lt _ (by omega)
  rw [bit, ofPred, BitVec.getLsbD_setWidth, BitVec.getLsbD_ofBoolListLE,
    List.getD_eq_getElem?_getD, List.getElem?_map, List.getElem?_range h32, Option.map_some,
    Option.getD_some, Nat.div_add_mod, decide_eq_true h32, Bool.true_and]

theorem isFree_ofPred (nbits : ℕ) (p : ℕ → Bool) (i : ℕ) :
    (ofPred nbits p).isFree i = (decide (i < nbits) && p i) := by
  rw [isFree, bit_ofPred, ofPred, ← Bool.and_assoc, Bool.and_self]

theorem wf_ofPred (nbits : ℕ) (p : ℕ → Bool) : (ofPred nbits p).Wf where
  nwords := rfl
  padding i hi _ := by
    have hlt : ¬i < nbits := not_lt.mpr hi
    rw [bit_ofPred, decide_eq_false hlt, Bool.false_and]

/-- The size of the set of free indices, counted on any finite set that is the same. -/
theorem freeCount_ofPred {nbits : ℕ} {p : ℕ → Bool} (t : Finset ℕ)
    (ht : ∀ i, i ∈ t ↔ i < nbits ∧ p i = true) : (ofPred nbits p).freeCount = t.card := by
  rw [freeCount]
  congr 1
  ext i
  rw [Finset.mem_filter, Finset.mem_range, isFree_ofPred, ht]
  simp [ofPred]

theorem freeCount_pos {b : Bitmap} {i : ℕ} (hi : b.isFree i = true) : 0 < b.freeCount := by
  have := freeCount_flip hi
  omega

theorem exists_isFree_of_freeCount_pos {b : Bitmap} (h : 0 < b.freeCount) :
    ∃ i, b.isFree i = true := by
  obtain ⟨i, hi⟩ := Finset.card_pos.mp h
  exact ⟨i, (Finset.mem_filter.mp hi).2⟩

end Bitmap

/-! ## What the operations do to the set of free indices -/

theorem findWord_eq_none {b : Bitmap} (h : findWord b = none) : ∀ ix < b.nwords, b.map ix = 0 := by
  intro ix hix
  rw [findWord, List.find?_range_eq_none] at h
  simpa using h ix hix

theorem findWord_eq_some {b : Bitmap} {ix : ℕ} (h : findWord b = some ix) :
    b.map ix ≠ 0 ∧ ix < b.nwords ∧ ∀ jx < ix, b.map jx = 0 := by
  rw [findWord, List.find?_range_eq_some] at h
  exact ⟨by simpa using h.1, by simpa using h.2.1, fun jx hjx ↦ by simpa using h.2.2 jx hjx⟩

theorem findOffset_eq_none {w : BitVec 32} (h : findOffset w = none) : w = 0 := by
  by_contra hne
  obtain ⟨k, hk, hbit⟩ := exists_getLsbD_of_ne_zero hne
  rw [findOffset, List.find?_range_eq_none] at h
  have hzero := h k hk
  rw [Bool.not_eq_true', bne_eq_false_iff_eq, and_bitMask_eq_zero hk, hbit] at hzero
  exact Bool.noConfusion hzero

theorem findOffset_eq_some {w : BitVec 32} {k : ℕ} (h : findOffset w = some k) :
    k < 32 ∧ w.getLsbD k = true ∧ ∀ j < k, w.getLsbD j = false := by
  rw [findOffset, List.find?_range_eq_some] at h
  obtain ⟨hbit, hmem, hbefore⟩ := h
  have hk : k < 32 := by simpa using hmem
  refine ⟨hk, ?_, fun j hj ↦ ?_⟩
  · rw [bne_iff_ne, ne_eq, and_bitMask_eq_zero hk] at hbit
    simpa using hbit
  · have := hbefore j hj
    rwa [Bool.not_eq_true', bne_eq_false_iff_eq, and_bitMask_eq_zero (by omega)] at this

/-- `bitmap_alloc` takes the smallest free index, or reports that there is none. -/
theorem bitmapAlloc_cases {b : Bitmap} (h : b.Wf) :
    (∃ i, b.isFree i = true ∧ (∀ j < i, b.isFree j = false) ∧
      bitmapAlloc.run b = .ok i (b.flip i)) ∨
      ((∀ i, b.isFree i = false) ∧ bitmapAlloc.run b = .error .noMem b) := by
  rw [bitmapAlloc, get_bind_run]
  cases hix : findWord b with
  | none =>
    have hzero := findWord_eq_none hix
    refine Or.inr ⟨fun i ↦ ?_, rfl⟩
    by_cases hi : i < b.nbits
    · have hw : i / 32 < b.nwords := by
        rw [h.nwords]
        omega
      simp [Bitmap.isFree, Bitmap.bit, hzero _ hw]
    · simp [Bitmap.isFree, hi]
  | some ix =>
    obtain ⟨hne, hlt, hwords⟩ := findWord_eq_some hix
    simp only
    cases hoff : findOffset (b.map ix) with
    | none => exact absurd (findOffset_eq_none hoff) hne
    | some off =>
      obtain ⟨hoff32, hbit, hbits⟩ := findOffset_eq_some hoff
      have hdiv : (ix * 32 + off) / 32 = ix := by omega
      have hmod : (ix * 32 + off) % 32 = off := by omega
      have hset : b.bit (ix * 32 + off) = true := by rw [Bitmap.bit, hdiv, hmod, hbit]
      refine Or.inl ⟨ix * 32 + off, ?_, fun j hj ↦ ?_, ?_⟩
      · rw [Bitmap.isFree_iff]
        refine ⟨?_, hset⟩
        by_contra hge
        rw [h.padding _ (by omega) (by omega)] at hset
        exact Bool.noConfusion hset
      · rw [Bitmap.isFree, Bitmap.bit]
        by_cases hj' : j / 32 = ix
        · rw [hj', hbits (j % 32) (by omega), Bool.and_false]
        · simp [hwords (j / 32) (by omega)]
      · rw [Bitmap.flip, hdiv, hmod]
        rfl

theorem bitmapTest_eq {b : Bitmap} {i : ℕ} (hi : i < b.nbits) :
    (bitmapTest i).run b = .ok (b.isFree i) b := by
  rw [bitmapTest, get_bind_run, assert_bind_run hi, run_pure]
  congr 1
  have h32 : i % 32 < 32 := Nat.mod_lt _ (by omega)
  rw [Bool.eq_iff_iff, bne_iff_ne, ne_eq, and_bitMask_eq_zero h32, Bitmap.isFree, Bitmap.bit]
  simp [hi]

theorem bitmapFree_eq {b : Bitmap} {i : ℕ} (hi : i < b.nbits) (hused : b.isFree i = false) :
    (bitmapFree i).run b = .ok () (b.set i) := by
  have h32 : i % 32 < 32 := Nat.mod_lt _ (by omega)
  have hzero : b.map (i / wordBits) &&& bitMask (i % wordBits) = 0 := by
    rw [and_bitMask_eq_zero h32]
    simpa [Bitmap.isFree, hi, Bitmap.bit] using hused
  rw [bitmapFree, get_bind_run, assert_bind_run hi, assert_bind_run hzero]
  rfl

end Ucore
