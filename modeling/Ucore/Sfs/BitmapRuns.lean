import Ucore.Sfs.Bitmap

/-!
# The bitmap as a set of indices

`kern/fs/sfs/bitmap.c` from `bitmap_create` on. A finite set of indices does the same to itself as
the four routines do to the words: `bitmap_alloc` takes the least element, `bitmap_test` asks for
membership and `bitmap_free` inserts. The main result is `bitmapCalls_refines`, on any sequence of
calls.
-/

namespace Ucore

open Prog

/-! ## Creation -/

/-- The loop of `bitmap_create` that marks the leftover bits of word `ix` as in use, `n` of them
from `overbits` on. -/
def markLoop (ix : ℕ) : ℕ → ℕ → Bitmap → Bitmap
  | 0, _, b => b
  | n + 1, overbits, b =>
    markLoop ix n (overbits + 1)
      { b with map := Function.update b.map ix (b.map ix ^^^ bitMask overbits) }

/-- `bitmap_create`. What lies in the memory of `map` before is in `junk`, and `gotBitmap` and
`gotMap` tell whether `kmalloc` finds memory; the sums are those of `size_t`. -/
def bitmapCreateWords (junk : ℕ → BitVec 32) (gotBitmap gotMap : Bool) (nbits : ℕ) :
    Prog Errno Unit (Option Bitmap) := do
  assert (nbits ≠ 0 ∧ nbits < nbits + wordBits)
  if gotBitmap = false then return none
  else if gotMap = false then return none
  else
    let nwords := (nbits + wordBits - 1) / wordBits
    let b : Bitmap :=
      { nbits := nbits, nwords := nwords
        map := fun w ↦ if w < nwords then BitVec.allOnes 32 else junk w }
    if nbits ≠ nwords * wordBits then
      let ix := nwords - 1
      let overbits := nbits - ix * wordBits
      assert (nbits / wordBits = ix)
      assert (0 < overbits ∧ overbits < wordBits)
      return some (markLoop ix (wordBits - overbits) overbits b)
    else return some b

theorem markLoop_bit (ix n overbits : ℕ) (b : Bitmap) (hn : overbits + n ≤ 32) (i : ℕ) :
    (markLoop ix n overbits b).bit i =
      (b.bit i ^^ decide (ix * 32 + overbits ≤ i ∧ i < ix * 32 + overbits + n)) := by
  induction n generalizing overbits b with
  | zero =>
    have hno : ¬(ix * 32 + overbits ≤ i ∧ i < ix * 32 + overbits + 0) := by omega
    rw [markLoop, decide_eq_false hno, Bool.xor_false]
  | succ n ih =>
    have hdiv : (ix * 32 + overbits) / 32 = ix := by omega
    have hmod : (ix * 32 + overbits) % 32 = overbits := by omega
    have hflip : { b with map := Function.update b.map ix (b.map ix ^^^ bitMask overbits) }
        = b.flip (ix * 32 + overbits) := by
      rw [Bitmap.flip, hdiv, hmod]
    rw [markLoop, ih _ _ (by omega), hflip, Bitmap.bit_flip, Bool.xor_assoc]
    congr 1
    by_cases hi : i = ix * 32 + overbits
    · have hout : ¬(ix * 32 + (overbits + 1) ≤ i ∧ i < ix * 32 + (overbits + 1) + n) := by omega
      have hin : ix * 32 + overbits ≤ i ∧ i < ix * 32 + overbits + (n + 1) := by omega
      rw [decide_eq_true hi, decide_eq_false hout, decide_eq_true hin, Bool.xor_false]
    · have hsame : (ix * 32 + (overbits + 1) ≤ i ∧ i < ix * 32 + (overbits + 1) + n) ↔
          ix * 32 + overbits ≤ i ∧ i < ix * 32 + overbits + (n + 1) := by omega
      rw [decide_eq_false hi, Bool.false_xor, decide_eq_decide]
      exact hsame

theorem markLoop_sizes (ix n overbits : ℕ) (b : Bitmap) :
    (markLoop ix n overbits b).nbits = b.nbits ∧ (markLoop ix n overbits b).nwords = b.nwords := by
  induction n generalizing overbits b with
  | zero => exact ⟨rfl, rfl⟩
  | succ n ih =>
    rw [markLoop]
    exact ih _ _

/-- The bitmap stands for the set `free` of indices below `nbits`. -/
structure Stands (b : Bitmap) (nbits : ℕ) (free : Finset ℕ) : Prop where
  wf : b.Wf
  nbits : b.nbits = nbits
  isFree : ∀ i, b.isFree i = true ↔ i ∈ free

/-- Two bitmaps that stand for one set have the same words. -/
theorem Stands.map_eq {b b' : Bitmap} {nbits : ℕ} {free : Finset ℕ} (h : Stands b nbits free)
    (h' : Stands b' nbits free) {w : ℕ} (hw : w < b.nwords) : b.map w = b'.map w := by
  have hwords : b'.nwords = b.nwords := by rw [h.wf.nwords, h'.wf.nwords, h.nbits, h'.nbits]
  refine BitVec.eq_of_getLsbD_eq fun j hj ↦ ?_
  have hbit : b.bit (32 * w + j) = b'.bit (32 * w + j) := by
    by_cases hlt : 32 * w + j < nbits
    · have hfree := (h.isFree (32 * w + j)).trans (h'.isFree (32 * w + j)).symm
      rw [Bitmap.isFree_iff, Bitmap.isFree_iff, h.nbits, h'.nbits] at hfree
      exact Bool.eq_iff_iff.mpr ⟨fun hb ↦ (hfree.mp ⟨hlt, hb⟩).2, fun hb ↦ (hfree.mpr ⟨hlt, hb⟩).2⟩
    · rw [h.wf.padding _ (h.nbits ▸ not_lt.mp hlt) (by omega),
        h'.wf.padding _ (h'.nbits ▸ not_lt.mp hlt) (by omega)]
  have hdiv : (32 * w + j) / 32 = w := by omega
  have hmod : (32 * w + j) % 32 = j := by omega
  rwa [Bitmap.bit, Bitmap.bit, hdiv, hmod] at hbit

/-- A new bitmap has every index free, and its padding in use. -/
theorem bitmapCreateWords_stands (junk : ℕ → BitVec 32) {nbits : ℕ} (hn : nbits ≠ 0) :
    ∃ b, (bitmapCreateWords junk true true nbits).run () = .ok (some b) () ∧
      Stands b nbits (Finset.range nbits) := by
  have hassert : nbits ≠ 0 ∧ nbits < nbits + wordBits := ⟨hn, Nat.lt_add_of_pos_right (by decide)⟩
  have hones : ∀ i, i < 32 * ((nbits + 32 - 1) / 32) → Bitmap.bit
      ⟨nbits, (nbits + wordBits - 1) / wordBits, fun w ↦
        if w < (nbits + wordBits - 1) / wordBits then BitVec.allOnes 32 else junk w⟩ i = true := by
    intro i hi
    have hw : i / 32 < (nbits + 32 - 1) / 32 := by omega
    have hk : i % 32 < 32 := Nat.mod_lt i (by decide)
    rw [Bitmap.bit]
    simp only [wordBits, if_pos hw, BitVec.getLsbD_allOnes, hk, decide_true]
  -- what is to show of either branch: the bits below `nbits` are set, those of the padding are not
  have hstands : ∀ b : Bitmap, b.nbits = nbits → b.nwords = (nbits + 31) / 32 →
      (∀ i < 32 * ((nbits + 31) / 32), b.bit i = decide (i < nbits)) →
      Stands b nbits (Finset.range nbits) := by
    intro b hnbits hnwords hbit
    refine ⟨⟨hnbits ▸ hnwords, fun i hi hi' ↦ ?_⟩, hnbits, fun i ↦ ?_⟩
    · rw [hbit i (hnwords ▸ hi'), decide_eq_false (by omega)]
    · rw [Bitmap.isFree_iff, Finset.mem_range, hnbits]
      refine ⟨fun h ↦ h.1, fun h ↦ ⟨h, ?_⟩⟩
      rw [hbit i (by omega), decide_eq_true h]
  rw [bitmapCreateWords, assert_bind_run hassert, if_neg (by decide), if_neg (by decide)]
  simp only [wordBits] at hones ⊢
  by_cases hfull : nbits ≠ (nbits + 32 - 1) / 32 * 32
  · have hix : nbits / 32 = (nbits + 32 - 1) / 32 - 1 := by omega
    have hover : 0 < nbits - ((nbits + 32 - 1) / 32 - 1) * 32 ∧
        nbits - ((nbits + 32 - 1) / 32 - 1) * 32 < 32 := by omega
    rw [if_pos hfull, assert_bind_run hix, assert_bind_run hover]
    refine ⟨_, rfl, hstands _ (markLoop_sizes _ _ _ _).1 ((markLoop_sizes _ _ _ _).2.trans ?_) ?_⟩
    · rfl
    intro i hi
    rw [markLoop_bit _ _ _ _ (by omega), hones i hi]
    by_cases hlt : i < nbits
    · rw [decide_eq_true hlt, decide_eq_false (by omega), Bool.xor_false]
    · rw [decide_eq_false hlt, decide_eq_true (by omega), Bool.xor_self]
  · rw [if_neg hfull]
    refine ⟨_, rfl, hstands _ rfl rfl fun i hi ↦ ?_⟩
    rw [hones i hi, decide_eq_true (by omega)]

/-! ## Calls -/

/-- A call of one of the routines. -/
inductive BitmapOp
  | alloc
  | test (index : ℕ)
  | free (index : ℕ)
  deriving DecidableEq, Repr

/-- What a call answers. -/
inductive BitmapAnswer
  | index (i : ℕ)
  | error (e : Errno)
  | bit (set : Bool)
  | done
  deriving DecidableEq, Repr

/-- One call on the words. -/
def BitmapOp.run : BitmapOp → Prog Errno Bitmap BitmapAnswer
  | .alloc => do
    let ret ← attempt bitmapAlloc
    match ret with
    | .ok i => return .index i
    | .error e => return .error e
  | .test i => do
    let set ← bitmapTest i
    return .bit set
  | .free i => do
    bitmapFree i
    return .done

/-- A sequence of calls, with their answers. -/
def bitmapCalls : List BitmapOp → Prog Errno Bitmap (List BitmapAnswer)
  | [] => return []
  | op :: ops => do
    let answer ← op.run
    let answers ← bitmapCalls ops
    return answer :: answers

/-- One call on the set of free indices: its answer and the set after it. -/
def BitmapOp.onSet (free : Finset ℕ) : BitmapOp → BitmapAnswer × Finset ℕ
  | .alloc =>
    if h : free.Nonempty then (.index (free.min' h), free.erase (free.min' h))
    else (.error .noMem, free)
  | .test i => (.bit (decide (i ∈ free)), free)
  | .free i => (.done, insert i free)

/-- A sequence of calls on the set. -/
def callsOnSet (free : Finset ℕ) : List BitmapOp → List BitmapAnswer × Finset ℕ
  | [] => ([], free)
  | op :: ops =>
    ((op.onSet free).1 :: (callsOnSet (op.onSet free).2 ops).1,
    (callsOnSet (op.onSet free).2 ops).2)

/-- Only an index of the bitmap is asked for, and only an allocated one is freed. -/
def BitmapOp.Allowed (nbits : ℕ) (free : Finset ℕ) : BitmapOp → Prop
  | .alloc => True
  | .test i => i < nbits
  | .free i => i < nbits ∧ i ∉ free

/-- Every call of a sequence is allowed when its turn comes. -/
def CallsAllowed (nbits : ℕ) : Finset ℕ → List BitmapOp → Prop
  | _, [] => True
  | free, op :: ops => op.Allowed nbits free ∧ CallsAllowed nbits (op.onSet free).2 ops

namespace Stands

variable {b : Bitmap} {nbits : ℕ} {free : Finset ℕ}

theorem lt_of_mem (h : Stands b nbits free) {i : ℕ} (hi : i ∈ free) : i < nbits := by
  have hfree := (h.isFree i).mpr hi
  rw [Bitmap.isFree_iff, h.nbits] at hfree
  exact hfree.1

/-- What is free is smallest in the bitmap as in the set. -/
theorem alloc (h : Stands b nbits free) :
    ∃ b', (BitmapOp.run .alloc).run b = .ok (BitmapOp.onSet free .alloc).1 b' ∧
      Stands b' nbits (BitmapOp.onSet free .alloc).2 := by
  rcases bitmapAlloc_cases h.wf with ⟨i, hi, hmin, hrun⟩ | ⟨hnone, hrun⟩
  · have hmem := (h.isFree i).mp hi
    have hne : free.Nonempty := ⟨i, hmem⟩
    have hleast : free.min' hne = i := by
      refine le_antisymm (free.min'_le i hmem) (free.le_min' hne i fun j hj ↦ ?_)
      by_contra hlt
      have hused := hmin j (not_le.mp hlt)
      rw [(h.isFree j).mpr hj] at hused
      exact Bool.noConfusion hused
    rw [BitmapOp.onSet, dif_pos hne, hleast]
    refine ⟨b.flip i, ?_, h.wf.flip (Bitmap.isFree_iff.mp hi).1, h.nbits, fun j ↦ ?_⟩
    · rw [BitmapOp.run, bind_of_ok (attempt_of_ok hrun), run_pure]
    · rw [Bitmap.isFree_flip hi, h.isFree, Finset.mem_erase, and_comm]
  · have hempty : ¬free.Nonempty := by
      rintro ⟨i, hi⟩
      have hused := hnone i
      rw [(h.isFree i).mpr hi] at hused
      exact Bool.noConfusion hused
    rw [BitmapOp.onSet, dif_neg hempty]
    refine ⟨b, ?_, h⟩
    rw [BitmapOp.run, bind_of_ok (attempt_of_error hrun), run_pure]

theorem op (h : Stands b nbits free) {op : BitmapOp} (hop : op.Allowed nbits free) :
    ∃ b', op.run.run b = .ok (op.onSet free).1 b' ∧ Stands b' nbits (op.onSet free).2 := by
  cases op with
  | alloc => exact h.alloc
  | test i =>
    have hi : i < b.nbits := by
      rw [h.nbits]
      exact hop
    have hbit : b.isFree i = decide (i ∈ free) := by
      rw [Bool.eq_iff_iff, h.isFree, decide_eq_true_iff]
    refine ⟨b, ?_, h⟩
    rw [BitmapOp.run, bind_of_ok (bitmapTest_eq hi), run_pure, hbit]
    rfl
  | free i =>
    have hi : i < b.nbits := by
      rw [h.nbits]
      exact hop.1
    have hused : b.isFree i = false := by
      rw [← Bool.not_eq_true, h.isFree]
      exact hop.2
    refine ⟨b.set i, ?_, h.wf.set hi, h.nbits, fun j ↦ ?_⟩
    · rw [BitmapOp.run, bind_of_ok (bitmapFree_eq hi hused), run_pure]
      rfl
    · rw [Bitmap.isFree_set hi, h.isFree]
      change _ ↔ j ∈ insert i free
      rw [Finset.mem_insert, or_comm]

theorem ops (h : Stands b nbits free) {ops : List BitmapOp} (hops : CallsAllowed nbits free ops) :
    ∃ b', (bitmapCalls ops).run b = .ok (callsOnSet free ops).1 b' ∧
      Stands b' nbits (callsOnSet free ops).2 ∧
      ∀ i, BitmapAnswer.index i ∈ (callsOnSet free ops).1 → i < nbits := by
  induction ops generalizing b free with
  | nil => exact ⟨b, rfl, h, fun i hi ↦ absurd hi List.not_mem_nil⟩
  | cons op ops ih =>
    obtain ⟨b₁, hrun, h₁⟩ := h.op hops.1
    obtain ⟨b₂, hruns, h₂, hlt⟩ := ih h₁ hops.2
    refine ⟨b₂, ?_, h₂, fun i hi ↦ ?_⟩
    · rw [bitmapCalls, bind_of_ok hrun, bind_of_ok hruns, run_pure]
      rfl
    rcases List.mem_cons.mp hi with heq | hi
    · -- an index that is handed out was free
      cases op with
      | alloc =>
        rw [BitmapOp.onSet] at heq
        by_cases hne : free.Nonempty
        · rw [dif_pos hne] at heq
          rw [BitmapAnswer.index.inj heq]
          exact h.lt_of_mem (free.min'_mem hne)
        · rw [dif_neg hne] at heq
          cases heq
      | test j => cases heq
      | free j => cases heq
    · exact hlt i hi

end Stands

/-- A bitmap that was just created answers any sequence of calls as the set of its indices does, and
never hands out an index of the padding. -/
theorem bitmapCalls_refines (junk : ℕ → BitVec 32) {nbits : ℕ} (hn : nbits ≠ 0)
    (ops : List BitmapOp) (hops : CallsAllowed nbits (Finset.range nbits) ops) :
    ∃ b, (bitmapCreateWords junk true true nbits).run () = .ok (some b) () ∧
      ∃ b', (bitmapCalls ops).run b = .ok (callsOnSet (Finset.range nbits) ops).1 b' ∧
        (∀ i, b'.isFree i = true ↔ i ∈ (callsOnSet (Finset.range nbits) ops).2) ∧
        (∀ i, nbits ≤ i → i < 32 * b'.nwords → b'.bit i = false) ∧
        ∀ i, BitmapAnswer.index i ∈ (callsOnSet (Finset.range nbits) ops).1 → i < nbits := by
  obtain ⟨b, hcreate, hb⟩ := bitmapCreateWords_stands junk hn
  obtain ⟨b', hrun, hb', hlt⟩ := hb.ops hops
  refine ⟨b, hcreate, b', hrun, hb'.isFree, fun i hi hi' ↦ ?_, hlt⟩
  exact hb'.wf.padding i (hb'.nbits ▸ hi) hi'

/-- Three indices are taken out of three, and one is given back. -/
theorem bitmapCalls_refines_three :
    ∃ b, (bitmapCreateWords (fun _ ↦ 0) true true 3).run () = .ok (some b) () ∧
      ∃ b', (bitmapCalls [.alloc, .alloc, .alloc, .alloc, .free 1, .test 1, .alloc]).run b
        = .ok [.index 0, .index 1, .index 2, .error .noMem, .done, .bit true, .index 1] b' := by
  have hops : CallsAllowed 3 (Finset.range 3)
      [.alloc, .alloc, .alloc, .alloc, .free 1, .test 1, .alloc] := by
    simp only [CallsAllowed, BitmapOp.Allowed]
    decide
  obtain ⟨b, hcreate, b', hrun, -⟩ := bitmapCalls_refines (fun _ ↦ 0) (by decide) _ hops
  exact ⟨b, hcreate, b', hrun.trans (congrArg (Outcome.ok · b') (by decide))⟩

end Ucore
