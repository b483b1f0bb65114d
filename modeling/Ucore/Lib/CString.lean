import Mathlib.Tactic
import Ucore.Lib.Bytes

/-!
# Strings in memory

A string of C is the bytes of a buffer up to the first zero. `cstring b n` reads one from a buffer
of `n` bytes, and `strcpy` stores one, leaving what lies behind the terminating zero as it was.
-/

namespace Bytes

/-- A string, without the terminating zero. -/
abbrev CStr := { s : List UInt8 // ∀ c ∈ s, c ≠ 0 }

/-- The string at the start of a buffer of `n` bytes. -/
def cstring (b : Bytes) : ℕ → List UInt8
  | 0 => []
  | n + 1 => if b 0 = 0 then [] else b 0 :: cstring (fun i ↦ b (i + 1)) n

/-- `strnlen` of the string at `s`. -/
def strnlen (b : Bytes) : ℕ → ℕ → ℕ
  | _, 0 => 0
  | s, n + 1 => if b s = 0 then 0 else strnlen b (s + 1) n + 1

/-- The string at `s` has `k` bytes in front of its terminating zero. -/
def EndsAt (b : Bytes) (s k : ℕ) : Prop := b (s + k) = 0 ∧ ∀ i < k, b (s + i) ≠ 0

/-- `strcpy` to offset `d` of a buffer. -/
def strcpy (dst : Bytes) (d : ℕ) (s : List UInt8) : Bytes := fun i ↦
  if d ≤ i ∧ i < d + s.length then s.getD (i - d) 0
  else if i = d + s.length then 0
  else dst i

/-- The bytes of a string that stands in a buffer and is terminated there. -/
theorem cstring_eq {b : Bytes} {s : List UInt8} {n : ℕ} (hs : ∀ c ∈ s, c ≠ 0)
    (hb : ∀ i (hi : i < s.length), b i = s[i]) (hend : b s.length = 0) (hn : s.length < n) :
    cstring b n = s := by
  induction n generalizing b s with
  | zero => omega
  | succ n ih =>
    cases s with
    | nil => exact if_pos hend
    | cons c s =>
      have hc : b 0 = c := hb 0 (Nat.succ_pos _)
      have htail : cstring (fun i ↦ b (i + 1)) n = s := by
        refine ih (fun c' hc' ↦ hs c' (List.mem_cons_of_mem _ hc')) (fun i hi ↦ ?_) hend ?_
        · exact hb (i + 1) (Nat.succ_lt_succ hi)
        · rw [List.length_cons] at hn
          omega
      rw [cstring, hc, if_neg (hs c List.mem_cons_self), htail]

/-- A string ends at the first zero. -/
theorem length_cstring_le {b : Bytes} {j : ℕ} (h : b j = 0) (n : ℕ) : (cstring b n).length ≤ j := by
  induction n generalizing b j with
  | zero => exact Nat.zero_le j
  | succ n ih =>
    rw [cstring]
    by_cases hzero : b 0 = 0
    · rw [if_pos hzero]
      exact Nat.zero_le j
    · rw [if_neg hzero, List.length_cons]
      cases j with
      | zero => exact absurd h hzero
      | succ j => exact Nat.succ_le_succ (ih h)

theorem strcpy_of_mem (dst : Bytes) (d : ℕ) {s : List UInt8} {i : ℕ} (hi : i < s.length) :
    strcpy dst d s (d + i) = s[i] := by
  rw [strcpy, if_pos ⟨by omega, by omega⟩, Nat.add_sub_cancel_left, List.getD_eq_getElem?_getD,
    List.getElem?_eq_getElem hi, Option.getD_some]

theorem strcpy_end (dst : Bytes) (d : ℕ) (s : List UInt8) : strcpy dst d s (d + s.length) = 0 := by
  rw [strcpy, if_neg fun h ↦ by omega, if_pos rfl]

theorem strcpy_of_lt (dst : Bytes) {d : ℕ} (s : List UInt8) {i : ℕ} (hi : i < d) :
    strcpy dst d s i = dst i := by
  rw [strcpy, if_neg fun h ↦ by omega, if_neg (by omega)]

/-! ## The length of a string -/

section Strnlen

variable {b : Bytes} {s n k : ℕ}

theorem EndsAt.unique {j : ℕ} (hj : b.EndsAt s j) (hk : b.EndsAt s k) : j = k := by
  rcases lt_trichotomy j k with hlt | heq | hgt
  · exact absurd hj.1 (hk.2 j hlt)
  · exact heq
  · exact absurd hk.1 (hj.2 k hgt)

/-- The scan stops at the first zero, or at its limit when it has met none. -/
theorem strnlen_cases (b : Bytes) (s n : ℕ) :
    (strnlen b s n < n ∧ b.EndsAt s (strnlen b s n)) ∨
      (strnlen b s n = n ∧ ∀ i < n, b (s + i) ≠ 0) := by
  induction n generalizing s with
  | zero => exact .inr ⟨rfl, fun i hi ↦ absurd hi (Nat.not_lt_zero i)⟩
  | succ n ih =>
    rw [strnlen]
    by_cases hzero : b s = 0
    · rw [if_pos hzero]
      exact .inl ⟨Nat.succ_pos n, hzero, fun i hi ↦ absurd hi (Nat.not_lt_zero i)⟩
    · rw [if_neg hzero]
      have hstep : ∀ j, (∀ i < j, b (s + 1 + i) ≠ 0) → ∀ i < j + 1, b (s + i) ≠ 0 := by
        intro j hj i hi
        rcases i with _ | i
        · exact hzero
        · have hrest := hj i (Nat.lt_of_succ_lt_succ hi)
          rwa [Nat.add_right_comm] at hrest
      rcases ih (s := s + 1) with ⟨hlt, hend, hbefore⟩ | ⟨heq, hall⟩
      · refine .inl ⟨Nat.succ_lt_succ hlt, ?_, hstep _ hbefore⟩
        rwa [Nat.add_right_comm, Nat.add_assoc] at hend
      · rw [heq]
        exact .inr ⟨rfl, hstep n hall⟩

theorem EndsAt.strnlen_eq (h : b.EndsAt s k) (hk : k < n) : strnlen b s n = k := by
  rcases strnlen_cases b s n with ⟨-, hend⟩ | ⟨-, hall⟩
  · exact hend.unique h
  · exact absurd h.1 (hall k hk)

/-- A string that does not end among the next `n` bytes ends further on. -/
theorem EndsAt.drop (h : b.EndsAt s k) (hn : ∀ i < n, b (s + i) ≠ 0) :
    n ≤ k ∧ b.EndsAt (s + n) (k - n) := by
  have hle : n ≤ k := not_lt.mp fun hlt ↦ hn k hlt h.1
  refine ⟨hle, ?_, fun i hi ↦ ?_⟩
  · rw [Nat.add_assoc, Nat.add_sub_cancel' hle]
    exact h.1
  · rw [Nat.add_assoc]
    exact h.2 (n + i) (Nat.add_lt_of_lt_sub' hi)

theorem EndsAt.push (h : b.EndsAt (s + n) k) (hn : ∀ i < n, b (s + i) ≠ 0) :
    b.EndsAt s (n + k) := by
  refine ⟨?_, fun i hi ↦ ?_⟩
  · rw [← Nat.add_assoc]
    exact h.1
  · rcases lt_or_ge i n with hlt | hge
    · exact hn i hlt
    · have hrest := h.2 (i - n) (Nat.sub_lt_left_of_lt_add hge hi)
      rwa [Nat.add_assoc, Nat.add_sub_cancel' hge] at hrest

end Strnlen

end Bytes
