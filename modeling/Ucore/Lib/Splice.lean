import Mathlib.Tactic

/-!
# Arrays read and written at an offset

The least one can ask of a file: a list from which a piece can be read at any offset and over which
a piece can be written at any offset up to the end, growing the list if the piece sticks out.
-/

namespace Splice

variable {α : Type}

/-- The piece of at most `len` elements at offset `off`. -/
def read (l : List α) (off len : ℕ) : List α := (l.drop off).take len

/-- The list with `xs` written over it at offset `off`. -/
def write (l : List α) (off : ℕ) (xs : List α) : List α :=
  l.take off ++ xs ++ l.drop (off + xs.length)

@[simp] theorem length_read (l : List α) (off len : ℕ) :
    (read l off len).length = min len (l.length - off) := by
  simp [read]

theorem getElem?_read (l : List α) (off len i : ℕ) :
    (read l off len)[i]? = if i < len then l[off + i]? else none := by
  rw [read, List.getElem?_take]
  simp

theorem length_write {l : List α} {off : ℕ} (h : off ≤ l.length) (xs : List α) :
    (write l off xs).length = max l.length (off + xs.length) := by
  simp only [write, List.length_append, List.length_take, List.length_drop]
  omega

theorem getElem?_write {l : List α} {off : ℕ} (h : off ≤ l.length) (xs : List α) (i : ℕ) :
    (write l off xs)[i]?
      = if off ≤ i ∧ i < off + xs.length then xs[i - off]? else l[i]? := by
  have htake : (l.take off).length = off := by simp [h]
  rw [write, List.append_assoc]
  by_cases hi : i < off
  · rw [List.getElem?_append_left (by omega), List.getElem?_take, if_pos hi, if_neg (by omega)]
  · rw [List.getElem?_append_right (by omega), htake]
    by_cases hx : i - off < xs.length
    · rw [List.getElem?_append_left hx, if_pos (by omega)]
    · rw [List.getElem?_append_right (by omega), List.getElem?_drop, if_neg (by omega)]
      congr 1
      omega

end Splice
