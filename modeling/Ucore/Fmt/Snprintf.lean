import Ucore.Fmt.Printfmt

/-!
# Formatted output into a buffer

`vsnprintf` of `libs/printfmt.c`: `sprintputch` counts the characters in an `int`, and stores those
that fit. The main result is `vsnprintf_meets_iff`.
-/

namespace Ucore.Printfmt

open Bytes

/-- `struct sprintbuf`, with the memory. -/
structure SprintBuf where
  mem : Bytes
  buf : ℕ
  ebuf : ℕ
  cnt : ℤ

def sprintputch (b : SprintBuf) (ch : UInt8) : SprintBuf :=
  let b := { b with cnt := wrap32 (b.cnt + 1) }
  if b.buf < b.ebuf then { b with mem := Function.update b.mem b.buf ch, buf := b.buf + 1 } else b

/-- `-E_INVAL`. -/
def negEInval : ℤ := -3

/-- `vsnprintf`: what it returns, and the memory. -/
def vsnprintf (mem : Bytes) (str size : ℕ) (fmt : List UInt8) (args : List Arg) :
    Except Fault (ℤ × Bytes) :=
  let b : SprintBuf := ⟨mem, str, (str + size - 1) % 2 ^ 64, 0⟩
  if str = 0 ∨ b.ebuf < b.buf then pure (negEInval, mem)
  else do
    let b ← vprintfmt sprintputch fmt args b
    pure (b.cnt, Function.update b.mem b.buf 0)

/-- A buffer of at least a byte. -/
structure Buffer where
  str : ℕ
  size : ℕ
  str_ne : str ≠ 0
  size_pos : 1 ≤ size
  fits : str + size ≤ 2 ^ 64

/-- What `vsnprintf` promises: the bytes outside the buffer stay, the buffer holds the part of the
output that fits, terminated, and the value is the length of the whole output. -/
def Meets (B : Buffer) (mem : Bytes) (fmt : CStr) (args : List Arg) : Prop :=
  ∃ out ret mem', printed (cbytes fmt) args = .ok out ∧
    vsnprintf mem B.str B.size (cbytes fmt) args = .ok (ret, mem') ∧
    (∀ a, a < B.str ∨ B.str + B.size ≤ a → mem' a = mem a) ∧
    (∀ i < min out.length (B.size - 1), out[i]? = some (mem' (B.str + i))) ∧
    mem' (B.str + min out.length (B.size - 1)) = 0 ∧ ret = out.length

@[simp] theorem sprintputch_ebuf (b : SprintBuf) (ch : UInt8) :
    (sprintputch b ch).ebuf = b.ebuf := by
  rw [sprintputch]
  dsimp only
  split_ifs <;> rfl

@[simp] theorem sprintputch_cnt (b : SprintBuf) (ch : UInt8) :
    (sprintputch b ch).cnt = wrap32 (b.cnt + 1) := by
  rw [sprintputch]
  dsimp only
  split_ifs <;> rfl

theorem foldl_sprintputch_cnt (out : List UInt8) (b : SprintBuf) (k : ℤ) (hk : b.cnt = wrap32 k) :
    (out.foldl sprintputch b).cnt = wrap32 (k + out.length) := by
  induction out generalizing b k with
  | nil => rw [List.foldl_nil, hk, List.length_nil, Nat.cast_zero, add_zero]
  | cons c out ih =>
    have hnext : (sprintputch b c).cnt = wrap32 (k + 1) := by
      rw [sprintputch_cnt, hk]
      exact Int.bmod_add_bmod
    rw [List.foldl_cons, ih _ _ hnext, List.length_cons, Nat.cast_succ, add_assoc, add_comm (1 : ℤ)]

/-- Once the buffer is full, characters are only counted. -/
theorem foldl_sprintputch_full (out : List UInt8) {b : SprintBuf} (h : b.ebuf ≤ b.buf) :
    (out.foldl sprintputch b).mem = b.mem ∧ (out.foldl sprintputch b).buf = b.buf := by
  induction out generalizing b with
  | nil => exact ⟨rfl, rfl⟩
  | cons c out ih =>
    have hput : sprintputch b c = { b with cnt := wrap32 (b.cnt + 1) } := if_neg h.not_gt
    rw [List.foldl_cons, hput]
    exact ih h

/-- The characters that fit are stored one behind the other, and nothing else changes. -/
theorem foldl_sprintputch (out : List UInt8) {b : SprintBuf} (h : b.buf ≤ b.ebuf) :
    (out.foldl sprintputch b).buf = b.buf + min out.length (b.ebuf - b.buf) ∧
      (∀ i < min out.length (b.ebuf - b.buf),
        out[i]? = some ((out.foldl sprintputch b).mem (b.buf + i))) ∧
      ∀ a, a < b.buf ∨ b.buf + min out.length (b.ebuf - b.buf) ≤ a →
        (out.foldl sprintputch b).mem a = b.mem a := by
  induction out generalizing b with
  | nil => exact ⟨by simp, fun i hi ↦ by simp at hi, fun a _ ↦ rfl⟩
  | cons c out ih =>
    rw [List.foldl_cons]
    by_cases hroom : b.buf < b.ebuf
    · have hput : sprintputch b c = { b with
          cnt := wrap32 (b.cnt + 1), mem := Function.update b.mem b.buf c, buf := b.buf + 1 } :=
        if_pos hroom
      obtain ⟨hbuf, hmem, hframe⟩ := ih (b := sprintputch b c) (by rw [hput]; exact hroom)
      have hnext : (sprintputch b c).buf = b.buf + 1 := by rw [hput]
      have hstored : (sprintputch b c).mem = Function.update b.mem b.buf c := by rw [hput]
      have hmin : min (c :: out).length (b.ebuf - b.buf) =
          min out.length (b.ebuf - (b.buf + 1)) + 1 := by
        rw [List.length_cons]
        omega
      rw [hnext, sprintputch_ebuf] at hbuf hmem hframe
      refine ⟨by rw [hbuf, hmin]; omega, fun i hi ↦ ?_, fun a ha ↦ ?_⟩
      · cases i with
        | zero =>
          rw [add_zero, hframe _ (.inl (Nat.lt_succ_self _)), hstored, Function.update_self]
          rfl
        | succ i =>
          rw [show b.buf + (i + 1) = b.buf + 1 + i by omega]
          exact hmem i (by omega)
      · rw [hframe a (by omega), hstored]
        exact Function.update_of_ne (by omega) ..
    · obtain ⟨hmem, hbuf⟩ := foldl_sprintputch_full (c :: out) (not_lt.mp hroom)
      rw [List.foldl_cons] at hmem hbuf
      have hmin : min (c :: out).length (b.ebuf - b.buf) = 0 := by omega
      exact ⟨by rw [hbuf, hmin, add_zero], fun i hi ↦ by omega, fun a _ ↦ by rw [hmem]⟩

namespace Buffer

variable (B : Buffer)

theorem ebuf_eq : (B.str + B.size - 1) % 2 ^ 64 = B.str + (B.size - 1) := by
  have := B.size_pos
  have := B.fits
  rw [Nat.mod_eq_of_lt] <;> omega

/-- In a buffer `vsnprintf` prints. -/
theorem vsnprintf_eq (mem : Bytes) (fmt : List UInt8) (args : List Arg) :
    vsnprintf mem B.str B.size fmt args =
      (vprintfmt sprintputch fmt args ⟨mem, B.str, B.str + (B.size - 1), 0⟩ >>= fun b ↦
        pure (b.cnt, Function.update b.mem b.buf 0)) := by
  have hguard : ¬ (B.str = 0 ∨ B.str + (B.size - 1) < B.str) :=
    not_or.mpr ⟨B.str_ne, by omega⟩
  simp only [vsnprintf, B.ebuf_eq, if_neg hguard]

end Buffer

/-- `vsnprintf` ends and reads its format up to the terminating zero only, for any format and
arguments. Where the arguments match the format, it keeps its promise exactly when no `%e` gets the
error code whose negative is no `int`, and the length of the output is an `int`. -/
theorem vsnprintf_meets_iff (B : Buffer) (mem : Bytes) (fmt : CStr) (args : List Arg) :
    Reads (fun _ ↦ True) (vsnprintf mem B.str B.size (cbytes fmt) args) ∧
      ∀ items, itemsOf (cbytes fmt) args = .ok items →
        (Meets B mem fmt args ↔
          (∀ it ∈ items, it.Defined) ∧ (output items).length < 2 ^ 31) := by
  refine ⟨?_, fun items hitems ↦ ?_⟩
  · rw [B.vsnprintf_eq]
    exact (vprintfmt_reads _ fmt args _).bind fun _ _ ↦ trivial
  by_cases hdef : ∀ it ∈ items, it.Defined
  swap
  · refine iff_of_false ?_ fun h ↦ hdef h.1
    rintro ⟨out, ret, mem', hout, -⟩
    rw [printed, vprintfmt_undefined _ hitems hdef] at hout
    cases hout
  -- the run in the buffer
  let b : SprintBuf := ⟨mem, B.str, B.str + (B.size - 1), 0⟩
  have hrun := B.vsnprintf_eq mem (cbytes fmt) args
  rw [vprintfmt_eq _ hitems hdef] at hrun
  obtain ⟨hbuf, hmem, hframe⟩ := foldl_sprintputch (output items) (b := b) (Nat.le_add_right _ _)
  have hcnt := foldl_sprintputch_cnt (output items) b 0 rfl
  have hroom : b.ebuf - b.buf = B.size - 1 := Nat.add_sub_cancel_left ..
  rw [hroom] at hbuf hmem hframe
  rw [zero_add] at hcnt
  constructor
  · rintro ⟨out, ret, mem', hout, hret, -, -, -, hlen⟩
    rw [printed_eq hitems hdef] at hout
    cases hout
    rw [hrun] at hret
    cases hret
    refine ⟨hdef, ?_⟩
    have hlt := wrap32_lt (output items).length
    rw [← hcnt, hlen] at hlt
    exact_mod_cast hlt
  · rintro ⟨-, hlen⟩
    have hpos := B.size_pos
    refine ⟨output items, _, _, printed_eq hitems hdef, hrun, fun a ha ↦ ?_, fun i hi ↦ ?_, ?_, ?_⟩
    · rw [Function.update_of_ne (by rw [hbuf]; change a ≠ B.str + _; omega)]
      exact hframe a (by change a < B.str ∨ B.str + _ ≤ a; omega)
    · rw [Function.update_of_ne (by rw [hbuf]; change B.str + i ≠ B.str + _; omega)]
      exact hmem i hi
    · rw [hbuf]
      exact Function.update_self ..
    · exact hcnt.trans (wrap32_of_le (by omega) (by exact_mod_cast hlen))

/-- A buffer of four bytes. -/
def fourBytes : Buffer := ⟨4096, 4, by decide, by decide, by decide⟩

theorem vsnprintf_meets_number :
    Meets fourBytes (fun _ ↦ 1) ⟨[97, 37, 100], by simp⟩ [.num 12345] :=
  ((vsnprintf_meets_iff fourBytes (fun _ ↦ 1) ⟨[97, 37, 100], by simp⟩ [.num 12345]).2 _ rfl).mpr
    ⟨List.forall_mem_cons.mpr
      ⟨trivial, List.forall_mem_singleton.mpr (signedItem_defined (getint 0 12345) {})⟩, by decide⟩

/-- `%e` with the least `int` reads `error_string` outside. -/
theorem vsnprintf_error_min :
    vsnprintf (fun _ ↦ 1) 4096 4 (cbytes ⟨[37, 101], by simp⟩) [.num 0x80000000] =
      .error .errorString ∧
    ¬ Meets fourBytes (fun _ ↦ 1) ⟨[37, 101], by simp⟩ [.num 0x80000000] := by
  have hrun : vsnprintf (fun _ ↦ 1) 4096 4 (cbytes ⟨[37, 101], by simp⟩) [.num 0x80000000] =
      .error .errorString := rfl
  refine ⟨hrun, ?_⟩
  rintro ⟨out, ret, mem', -, hret, -⟩
  rw [fourBytes, hrun] at hret
  cases hret

end Ucore.Printfmt
