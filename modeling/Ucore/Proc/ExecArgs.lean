import Ucore.Mm.CopyString

/-!
# The arguments of a new program

`do_execve` copies the arguments of the caller to buffers of the kernel (`copy_kargv`), and
`load_icode` writes them to the stack of the new program: the strings at the top, the array `uargv`
of pointers to them below, and `argc` below that, at the stack pointer. The strings end below the
top of the stack whatever their lengths are (`setupArgs_laid`).

The program does not get to see them. It is entered with the registers of the trap frame, which
`load_icode` clears, and `syscall` stores the return value of `do_execve` in `a0` afterwards, so
`umain` is called with no arguments (`syscall_exec_not_received`).
-/

namespace Bytes

/-- The eight-byte word at an offset. -/
def read64 (b : Bytes) (off : ℕ) : ℕ := read32 b off + 2 ^ 32 * read32 b (off + 4)

theorem read64_of_le {b : Bytes} {off n : ℕ} (hn : n < 2 ^ 32)
    (h : ∀ i < 8, b (off + i) = leByte n i) : read64 b off = n := by
  have hlow : read32 b off = n := read32_of_le hn fun i hi ↦ h i (by omega)
  have hhigh : read32 b (off + 4) = 0 := by
    apply read32_of_le (by decide)
    intro i hi
    rw [Nat.add_assoc, h (4 + i) (by omega)]
    -- the number has no more than four bytes
    have hdiv : n / 256 ^ (4 + i) = 0 := by
      apply Nat.div_eq_of_lt (hn.trans_le _)
      calc 2 ^ 32 = 256 ^ 4 := by norm_num
        _ ≤ 256 ^ (4 + i) := Nat.pow_le_pow_right (by decide) (Nat.le_add_right 4 i)
    rw [leByte, leByte, hdiv, Nat.zero_div]
  rw [read64, hlow, hhigh, Nat.mul_zero, Nat.add_zero]

end Bytes

namespace Ucore.Exec

open Bytes AddrSpace

def execMaxArgNum : ℕ := 32

def execMaxArgLen : ℕ := 4095

def ustackTop : ℕ := userTop

def ustackSize : ℕ := 256 * pgSize

/-! ## From the caller to the kernel -/

section CopyKargv

variable (give : ℕ → Bool) (fresh : ℕ → Bytes) (user : Bytes) (fuel : ℕ)

/-- The loop of `copy_kargv`, with `n` arguments to go and `kargv` so far. `give i` is whether
`kmalloc` finds room for buffer `i`, and `fresh i` is what stands in it. A failure frees the buffers
that there are. -/
def copyKargvLoop (argv : ℕ) :
    ℕ → ℕ → Option Mm → List Bytes → Option (Except Errno (List Bytes) × Option Mm)
  | 0, _, mm, kargv => some (.ok kargv, mm)
  | n + 1, i, mm, kargv =>
    if give i = false then some (.error .noMem, mm)
    else
      match copyString user fuel mm (fresh i) (read64 user (argv + 8 * i)) (execMaxArgLen + 1) with
      | none => none
      | some run =>
        if run.ret = false then some (.error .inval, run.mm)
        else copyKargvLoop argv n (i + 1) run.mm (kargv ++ [run.dst])

def copyKargv (mm : Option Mm) (argc argv : ℕ) :
    Option (Except Errno (List Bytes) × Option Mm) :=
  match userMemCheck fuel mm argv (8 * argc) false with
  | none => none
  | some (ok, mm) =>
    if ok = false then some (.error .inval, mm)
    else copyKargvLoop give fresh user fuel argv argc 0 mm []

end CopyKargv

/-! ## From the kernel to the new stack -/

/-- `strnlen(kargv[i], EXEC_MAX_ARG_LEN + 1)`. -/
def argLen (k : Bytes) : ℕ := strnlen k 0 (execMaxArgLen + 1)

/-- `argv_size`, a `uint32_t`, after the first loop. -/
def argvSize (size : ℕ) (kargv : List Bytes) : ℕ :=
  kargv.foldl (fun size k ↦ (size + (argLen k + 1)) % 2 ^ 32) size

/-- `strcpy` from a buffer of `EXEC_MAX_ARG_LEN + 1` bytes; none when no zero is in it. -/
def strcpyBuf (mem : Bytes) (d : ℕ) (k : Bytes) : Option Bytes :=
  if argLen k < execMaxArgLen + 1 then some (memcpy mem d k 0 (argLen k + 1)) else none

/-- The second loop: each string goes behind the last one, its address to `uargv[i]`. -/
def pushArgs (stacktop uargv : ℕ) : ℕ → ℕ → List Bytes → Bytes → Option Bytes
  | _, _, [], mem => some mem
  | i, size, k :: kargv, mem => do
    let mem ← strcpyBuf mem (stacktop + size) k
    pushArgs stacktop uargv (i + 1) ((size + (argLen k + 1)) % 2 ^ 32) kargv
      (memcpy mem (uargv + 8 * i) (le (stacktop + size)) 0 8)

/-- Step (6) of `load_icode` up to the trap frame, on the memory of the new program: the memory
afterwards and the stack pointer. `argc` is the number of buffers. -/
def setupArgs (kargv : List Bytes) (mem : Bytes) : Option (Bytes × ℕ) := do
  let stacktop := ustackTop - (argvSize 0 kargv / 8 + 1) * 8
  let uargv := stacktop - kargv.length * 8
  let mem ← pushArgs stacktop uargv 0 0 kargv mem
  let sp := uargv - 4
  some (memcpy mem sp (le kargv.length) 0 4, sp)

/-! ## What `copy_kargv` accepts -/

section Accepted

variable {user dst : Bytes} {mm : Option Mm} {off src maxn part fuel : ℕ} {run : CopyRun}

theorem userMemCheck_wraps {r : Bool × Option Mm} (hsrc : src < wordSize)
    (hrun : userMemCheck fuel mm src part false = some r) (hr : r.1 = true) :
    0 < part ∧ ((src + part) % wordSize = src + part ∨ wordSize ≤ part) := by
  have hlt : src < (src + part) % wordSize := by
    rw [userMemCheck.eq_def] at hrun
    cases mm with
    | none =>
      simp only [Option.some.injEq] at hrun
      rw [← hrun] at hr
      exact (of_decide_eq_true hr).2.1
    | some mm =>
      dsimp only at hrun
      split_ifs at hrun with hacc
      · exact hacc.2.1
      · rw [← Option.some.inj hrun] at hr
        exact absurd hr Bool.false_ne_true
  rw [wordSize] at *
  omega

/-- Whatever the address space is, a string that is copied ends within the limit. -/
theorem copyStringLoop_ends (hsrc : src < wordSize) (hmaxn : maxn < wordSize)
    (hrun : copyStringLoop user fuel mm dst off src maxn part = some run) (hret : run.ret = true) :
    ∃ k < maxn, user.EndsAt src k ∧ (∀ i ≤ k, run.dst (off + i) = user (src + i)) ∧
      ∀ i < off, run.dst i = dst i := by
  induction fuel generalizing mm dst off src maxn part run with
  | zero => exact absurd hrun (Option.some_ne_none _).symm
  | succ fuel ih =>
    rw [copyStringLoop] at hrun
    set p := if part > maxn then maxn else part with hp
    have hle : p ≤ maxn := by
      split_ifs at hp
      · omega
      · omega
    cases hcheck : userMemCheck fuel mm src p false with
    | none => simp [hcheck] at hrun
    | some r =>
      obtain ⟨ok, mm₁⟩ := r
      simp only [hcheck] at hrun
      cases ok with
      | false =>
        rw [if_pos rfl, Option.some.injEq] at hrun
        subst hrun
        exact absurd hret Bool.false_ne_true
      | true =>
        obtain ⟨hpos, hwrap⟩ := userMemCheck_wraps hsrc hcheck rfl
        have hword : (src + p) % wordSize = src + p := hwrap.resolve_right (by omega)
        rw [if_neg Bool.true_eq_false_eq_False] at hrun
        -- the string ends in this part, or goes on behind it
        rcases strnlen_cases user src p with ⟨hlt, hend⟩ | ⟨hlen, hall⟩
        · rw [if_pos hlt, Option.some.injEq] at hrun
          subst hrun
          refine ⟨_, hlt.trans_le hle, hend, fun i hi ↦ ?_, fun i hi ↦ ?_⟩
          · dsimp only
            rw [memcpy_of_mem (Nat.le_add_right off i) (by omega), Nat.add_sub_cancel_left]
          · exact memcpy_of_notMem (.inl hi)
        · rw [if_neg (by omega)] at hrun
          split_ifs at hrun with hmax
          · rw [Option.some.injEq] at hrun
            subst hrun
            exact absurd hret Bool.false_ne_true
          · obtain ⟨run', hrun', rfl⟩ := Option.map_eq_some_iff.mp hrun
            rw [hword] at hrun'
            have hnext : src + p < wordSize := by
              rw [← hword]
              exact Nat.mod_lt _ (by decide)
            obtain ⟨k, hk, hend, hcopy, hbelow⟩ := ih hnext (by omega) hrun' hret
            refine ⟨p + k, by omega, hend.push hall, fun i hi ↦ ?_, fun i hi ↦ ?_⟩
            · rw [CopyRun.after_dst]
              rcases lt_or_ge i p with hlt | hge
              · rw [hbelow (off + i) (by omega), memcpy_of_mem (Nat.le_add_right off i) (by omega),
                  Nat.add_sub_cancel_left]
              · have hi' := hcopy (i - p) (by omega)
                rwa [Nat.add_assoc, Nat.add_assoc, Nat.add_sub_cancel' hge] at hi'
            · rw [CopyRun.after_dst, hbelow i (by omega)]
              exact memcpy_of_notMem (.inl hi)

/-- Buffer `k` holds the string that stands at `a` for the caller. -/
def CopyOf (user : Bytes) (a : ℕ) (k : Bytes) : Prop :=
  argLen k ≤ execMaxArgLen ∧ user.EndsAt a (argLen k) ∧ ∀ j ≤ argLen k, k j = user (a + j)

theorem copyOf_of_copyString (hsrc : src < wordSize)
    (hrun : copyString user fuel mm dst src (execMaxArgLen + 1) = some run)
    (hret : run.ret = true) : CopyOf user src run.dst := by
  obtain ⟨k, hk, hend, hcopy, -⟩ := copyStringLoop_ends hsrc (by decide) hrun hret
  simp only [Nat.zero_add] at hcopy
  have hend' : run.dst.EndsAt 0 k := by
    refine ⟨?_, fun i hi ↦ ?_⟩
    · rw [Nat.zero_add, hcopy k le_rfl]
      exact hend.1
    · rw [Nat.zero_add, hcopy i hi.le]
      exact hend.2 i hi
  have hlen : argLen run.dst = k := hend'.strnlen_eq hk
  rw [CopyOf, hlen]
  exact ⟨Nat.lt_succ_iff.mp hk, hend, hcopy⟩

theorem read64_lt (b : Bytes) (o : ℕ) : read64 b o < wordSize := by
  have hlow := read32_lt b o
  have hhigh := read32_lt b (o + 4)
  rw [read64, wordSize]
  omega

variable {give : ℕ → Bool} {fresh : ℕ → Bytes} {argc argv : ℕ} {kargv : List Bytes}
    {mm' : Option Mm}

theorem copyKargvLoop_ok {n i : ℕ} {ks : List Bytes}
    (hrun : copyKargvLoop give fresh user fuel argv n i mm ks = some (.ok kargv, mm')) :
    ∃ new, kargv = ks ++ new ∧ new.length = n ∧
      ∀ j (hj : j < new.length), CopyOf user (read64 user (argv + 8 * (i + j))) new[j] := by
  induction n generalizing i mm ks with
  | zero =>
    simp only [copyKargvLoop, Option.some.injEq, Prod.mk.injEq, Except.ok.injEq] at hrun
    exact ⟨[], by simp [hrun.1], rfl, fun j hj ↦ absurd hj (Nat.not_lt_zero j)⟩
  | succ n ih =>
    rw [copyKargvLoop] at hrun
    split_ifs at hrun
    · simp at hrun
    · cases hcopy : copyString user fuel mm (fresh i) (read64 user (argv + 8 * i))
          (execMaxArgLen + 1) with
      | none => simp [hcopy] at hrun
      | some run =>
        simp only [hcopy] at hrun
        split_ifs at hrun with hret
        · simp at hrun
        · obtain ⟨new, rfl, hlen, hall⟩ := ih hrun
          refine ⟨run.dst :: new, by simp, by simp [hlen], fun j hj ↦ ?_⟩
          cases j with
          | zero =>
            exact copyOf_of_copyString (read64_lt _ _) hcopy (Bool.eq_true_of_not_eq_false hret)
          | succ j =>
            have hj' := hall j (Nat.lt_of_succ_lt_succ hj)
            rwa [Nat.add_right_comm i 1 j] at hj'

/-- The buffers that `copy_kargv` hands on are copies of the arguments. -/
theorem copyKargv_ok
    (hrun : copyKargv give fresh user fuel mm argc argv = some (.ok kargv, mm')) :
    kargv.length = argc ∧
      ∀ i (hi : i < kargv.length), CopyOf user (read64 user (argv + 8 * i)) kargv[i] := by
  rw [copyKargv] at hrun
  cases hcheck : userMemCheck fuel mm argv (8 * argc) false with
  | none => simp [hcheck] at hrun
  | some r =>
    obtain ⟨ok, mm₁⟩ := r
    simp only [hcheck] at hrun
    split_ifs at hrun
    · simp at hrun
    · obtain ⟨new, rfl, hlen, hall⟩ := copyKargvLoop_ok hrun
      simp only [Nat.zero_add] at hall
      exact ⟨hlen, hall⟩

end Accepted

/-! ## The layout -/

/-- The bytes of the strings, with their terminating zeros. -/
def argBytes (kargv : List Bytes) : ℕ := (kargv.map fun k ↦ argLen k + 1).sum

section Layout

variable {kargv : List Bytes} {mem mem' : Bytes} {stacktop uargv i size : ℕ}

@[simp] theorem argBytes_nil : argBytes [] = 0 := rfl

@[simp] theorem argBytes_cons (k : Bytes) (kargv : List Bytes) :
    argBytes (k :: kargv) = argLen k + 1 + argBytes kargv := by
  simp [argBytes]

theorem argBytes_le (h : ∀ k ∈ kargv, argLen k ≤ execMaxArgLen) :
    argBytes kargv ≤ (execMaxArgLen + 1) * kargv.length := by
  induction kargv with
  | nil => exact le_rfl
  | cons k kargv ih =>
    have hk := h k List.mem_cons_self
    have hrest := ih fun x hx ↦ h x (List.mem_cons_of_mem k hx)
    rw [argBytes_cons, List.length_cons, Nat.mul_succ]
    omega

theorem argvSize_cons (size : ℕ) (k : Bytes) (kargv : List Bytes) :
    argvSize size (k :: kargv) = argvSize ((size + (argLen k + 1)) % 2 ^ 32) kargv := rfl

/-- The sum does not overflow. -/
theorem argvSize_eq (h : size + argBytes kargv < 2 ^ 32) :
    argvSize size kargv = size + argBytes kargv := by
  induction kargv generalizing size with
  | nil => rfl
  | cons k kargv ih =>
    rw [argBytes_cons] at h
    have hmod : (size + (argLen k + 1)) % 2 ^ 32 = size + (argLen k + 1) :=
      Nat.mod_eq_of_lt (by omega)
    rw [argvSize_cons, hmod, ih (by omega), argBytes_cons]
    omega

/-- String `i` lies in front of string `j` when `i` comes first. -/
theorem argBytes_take_le (kargv : List Bytes) {i j : ℕ} (hij : i < j) (hi : i < kargv.length) :
    argBytes (kargv.take i) + (argLen kargv[i] + 1) ≤ argBytes (kargv.take j) := by
  induction kargv generalizing i j with
  | nil => exact absurd hi (Nat.not_lt_zero i)
  | cons k kargv ih =>
    obtain ⟨j, rfl⟩ := Nat.exists_eq_succ_of_ne_zero (Nat.ne_zero_of_lt hij)
    cases i with
    | zero =>
      simp only [List.take_zero, argBytes_nil, List.getElem_cons_zero, List.take_succ_cons,
        argBytes_cons]
      omega
    | succ i =>
      have hrest := ih (Nat.lt_of_succ_lt_succ hij) (Nat.lt_of_succ_lt_succ hi)
      simp only [List.take_succ_cons, argBytes_cons, List.getElem_cons_succ]
      omega

/-- What the second loop leaves, from argument `i` on with `size` bytes of strings in front. -/
structure Pushed (stacktop uargv i size : ℕ) (kargv : List Bytes) (mem mem' : Bytes) : Prop where
  /-- The array points to the strings. -/
  pointer : ∀ j < kargv.length,
    read64 mem' (uargv + 8 * (i + j)) = stacktop + (size + argBytes (kargv.take j))
  /-- Each string is a copy. -/
  string : ∀ j (hj : j < kargv.length), ∀ c ≤ argLen kargv[j],
    mem' (stacktop + (size + argBytes (kargv.take j)) + c) = kargv[j] c
  /-- The rest of the array, the strings in front and everything else is left alone. -/
  frame : ∀ a, a < uargv + 8 * i ∨
    (uargv + 8 * (i + kargv.length) ≤ a ∧ a < stacktop + size) ∨
      stacktop + (size + argBytes kargv) ≤ a → mem' a = mem a

theorem pushArgs_pushed (hterm : ∀ k ∈ kargv, argLen k ≤ execMaxArgLen)
    (harray : uargv + 8 * (i + kargv.length) ≤ stacktop)
    (htop : stacktop + (size + argBytes kargv) < 2 ^ 32) :
    ∃ mem', pushArgs stacktop uargv i size kargv mem = some mem' ∧
      Pushed stacktop uargv i size kargv mem mem' := by
  -- each round stores one string and the pointer to it
  induction kargv generalizing i size mem with
  | nil => exact ⟨mem, rfl, fun j hj ↦ absurd hj (Nat.not_lt_zero j),
      fun j hj ↦ absurd hj (Nat.not_lt_zero j), fun _ _ ↦ rfl⟩
  | cons k kargv ih =>
    rw [List.length_cons] at harray
    rw [argBytes_cons] at htop
    have hk : argLen k < execMaxArgLen + 1 := Nat.lt_succ_iff.mpr (hterm k List.mem_cons_self)
    have hmod : (size + (argLen k + 1)) % 2 ^ 32 = size + (argLen k + 1) :=
      Nat.mod_eq_of_lt (by omega)
    set mem₁ := memcpy mem (stacktop + size) k 0 (argLen k + 1) with hmem₁
    set mem₂ := memcpy mem₁ (uargv + 8 * i) (le (stacktop + size)) 0 8 with hmem₂
    have hrest : ∃ mem', pushArgs stacktop uargv (i + 1) (size + (argLen k + 1)) kargv mem₂ =
        some mem' ∧ Pushed stacktop uargv (i + 1) (size + (argLen k + 1)) kargv mem₂ mem' :=
      ih (fun x hx ↦ hterm x (List.mem_cons_of_mem k hx)) (by omega) (by omega)
    obtain ⟨mem', hrun, hpushed⟩ := hrest
    refine ⟨mem', ?_, ?_, ?_, ?_⟩
    · rw [pushArgs, strcpyBuf, if_pos hk, Option.bind_eq_bind, Option.bind_some, hmod]
      exact hrun
    · intro j hj
      cases j with
      | zero =>
        -- the pointer was stored in this round and lies below all that follows
        rw [List.take_zero, argBytes_nil, Nat.add_zero, Nat.add_zero]
        apply read64_of_le (by omega)
        intro b hb
        rw [hpushed.frame _ (.inl (by omega)), hmem₂,
          memcpy_of_mem (Nat.le_add_right _ b) (by omega), Nat.add_sub_cancel_left, Nat.zero_add,
          le]
      | succ j =>
        have hj' := hpushed.pointer j (Nat.lt_of_succ_lt_succ hj)
        rw [List.take_succ_cons, argBytes_cons, ← Nat.add_assoc size]
        rwa [Nat.add_right_comm i 1 j] at hj'
    · intro j hj c hc
      cases j with
      | zero =>
        rw [List.getElem_cons_zero] at hc ⊢
        rw [List.take_zero, argBytes_nil, Nat.add_zero, hpushed.frame _ (.inr (.inl ⟨?_, ?_⟩)),
          hmem₂, memcpy_of_notMem (.inr (by omega)), hmem₁,
          memcpy_of_mem (Nat.le_add_right _ c) (by omega), Nat.add_sub_cancel_left, Nat.zero_add]
        · omega
        · omega
      | succ j =>
        have hj' := hpushed.string j (Nat.lt_of_succ_lt_succ hj) c hc
        rw [List.take_succ_cons, argBytes_cons, ← Nat.add_assoc size]
        exact hj'
    · intro a ha
      rw [List.length_cons, argBytes_cons] at ha
      rw [hpushed.frame a (by omega), hmem₂, memcpy_of_notMem (by omega), hmem₁,
        memcpy_of_notMem (by omega)]

/-- The arguments `kargv` on a stack, with the stack pointer at `sp`. -/
structure ArgsLaid (kargv : List Bytes) (mem₀ mem : Bytes) (sp uargv : ℕ) (arg : ℕ → ℕ) : Prop where
  /-- `argc` is at the stack pointer, inside the stack and below all the rest. -/
  argc : read32 mem sp = kargv.length
  bottom : ustackTop - ustackSize ≤ sp
  below : sp + 4 ≤ uargv
  aligned : 8 ∣ uargv
  top : uargv + 8 * kargv.length ≤ ustackTop
  /-- The array points to the strings. -/
  pointer : ∀ i < kargv.length, read64 mem (uargv + 8 * i) = arg i
  /-- The strings lie above the array, one behind the other, inside the stack. -/
  above : ∀ i < kargv.length, uargv + 8 * kargv.length ≤ arg i
  inside : ∀ i (hi : i < kargv.length), arg i + (argLen kargv[i] + 1) ≤ ustackTop
  apart : ∀ i j (hij : i < j) (hj : j < kargv.length), arg i + (argLen kargv[i] + 1) ≤ arg j
  /-- They are copies with their terminating zeros. -/
  ends : ∀ i (hi : i < kargv.length), mem.EndsAt (arg i) (argLen kargv[i])
  string : ∀ i (hi : i < kargv.length), ∀ c ≤ argLen kargv[i], mem (arg i + c) = kargv[i] c
  /-- Nothing outside the stack is changed. -/
  frame : ∀ a, a < sp ∨ ustackTop ≤ a → mem a = mem₀ a

/-- The arguments are laid out in the stack, whatever their lengths are. -/
theorem setupArgs_laid (hnum : kargv.length ≤ execMaxArgNum)
    (hterm : ∀ k ∈ kargv, k.EndsAt 0 (argLen k) ∧ argLen k ≤ execMaxArgLen) (mem : Bytes) :
    ∃ mem' sp uargv arg, setupArgs kargv mem = some (mem', sp) ∧
      ArgsLaid kargv mem mem' sp uargv arg := by
  have hlen : ∀ k ∈ kargv, argLen k ≤ execMaxArgLen := fun k hk ↦ (hterm k hk).2
  have hbytes : argBytes kargv ≤ 4096 * 32 :=
    (argBytes_le hlen).trans (Nat.mul_le_mul_left 4096 hnum)
  have hsize : argvSize 0 kargv = argBytes kargv := by
    rw [argvSize_eq (by omega), Nat.zero_add]
  rw [execMaxArgNum] at hnum
  set stacktop := ustackTop - (argBytes kargv / 8 + 1) * 8 with hstacktop
  set uargv := stacktop - kargv.length * 8 with huargv
  rw [ustackTop, userTop] at hstacktop
  have hpush : ∃ mem₁, pushArgs stacktop uargv 0 0 kargv mem = some mem₁ ∧
      Pushed stacktop uargv 0 0 kargv mem mem₁ := pushArgs_pushed hlen (by omega) (by omega)
  obtain ⟨mem₁, hrun, hpushed⟩ := hpush
  -- `argc` goes below the array, so the strings and pointers stay
  have hstring : ∀ i (hi : i < kargv.length), ∀ c ≤ argLen kargv[i],
      memcpy mem₁ (uargv - 4) (le kargv.length) 0 4
        (stacktop + argBytes (kargv.take i) + c) = kargv[i] c := by
    intro i hi c hc
    have hcopy := hpushed.string i hi c hc
    rw [Nat.zero_add] at hcopy
    rw [memcpy_of_notMem (by omega), hcopy]
  refine ⟨memcpy mem₁ (uargv - 4) (le kargv.length) 0 4, uargv - 4, uargv,
    fun i ↦ stacktop + argBytes (kargv.take i), ?_, ?_⟩
  · simp only [setupArgs, hsize, Option.bind_eq_bind]
    rw [hrun]
    rfl
  constructor
  · exact read32_memcpy_le mem₁ _ (by omega)
  · rw [ustackTop, ustackSize, userTop, pgSize]
    omega
  · omega
  · omega
  · rw [ustackTop, userTop]
    omega
  · intro i hi
    have hptr := hpushed.pointer i hi
    rw [Nat.zero_add, Nat.zero_add] at hptr
    rw [← hptr]
    -- the store of `argc` is below the array
    have hapart : ∀ o, uargv ≤ o → read32 (memcpy mem₁ (uargv - 4) (le kargv.length) 0 4) o =
        read32 mem₁ o := fun o ho ↦ read32_congr fun b hb _ ↦ memcpy_of_notMem (by omega)
    rw [read64, read64, hapart _ (by omega), hapart _ (by omega)]
  · intro i hi
    omega
  · intro i hi
    have hle := argBytes_take_le kargv hi hi
    rw [List.take_length] at hle
    rw [ustackTop, userTop]
    omega
  · intro i j hij hj
    have hle := argBytes_take_le kargv hij (hij.trans hj)
    omega
  · intro i hi
    have hend := (hterm kargv[i] (List.getElem_mem hi)).1
    refine ⟨?_, fun c hc ↦ ?_⟩
    · rw [hstring i hi _ le_rfl]
      simpa using hend.1
    · rw [hstring i hi c hc.le]
      simpa using hend.2 c hc
  · exact hstring
  · intro a ha
    rw [ustackTop, userTop] at ha
    rw [memcpy_of_notMem (by omega), hpushed.frame a (by omega)]

end Layout

/-! ## The system call -/

/-- The registers of `struct pushregs`. -/
inductive Reg
  | zero | ra | sp | gp | tp | t0 | t1 | t2 | s0 | s1 | a0 | a1 | a2 | a3 | a4 | a5 | a6 | a7
  | s2 | s3 | s4 | s5 | s6 | s7 | s8 | s9 | s10 | s11 | t3 | t4 | t5 | t6
  deriving DecidableEq

/-- `struct trapframe` -/
structure TrapFrame where
  gpr : Reg → BitVec 64
  status : BitVec 64
  epc : BitVec 64
  tval : BitVec 64
  cause : BitVec 64

namespace TrapFrame

/-- `memset(tf, 0, sizeof(struct trapframe))` -/
def clear : TrapFrame := ⟨fun _ ↦ 0, 0, 0, 0, 0⟩

def set (tf : TrapFrame) (r : Reg) (v : BitVec 64) : TrapFrame :=
  { tf with gpr := Function.update tf.gpr r v }

@[simp] theorem set_gpr_self (tf : TrapFrame) (r : Reg) (v : BitVec 64) :
    (tf.set r v).gpr r = v := by simp [set]

end TrapFrame

/-- `(int)` of a register. -/
def intOf (r : BitVec 64) : ℤ := (r.setWidth 32).toInt

/-- `SSTATUS_SPP | SSTATUS_SPIE` -/
def sstatusBits : BitVec 64 := 0x100 ||| 0x20

/-- What `load_icode` has built before it sets up the arguments: the address space, its memory with
the program in it, and `e_entry`. -/
structure Image where
  mm : Mm
  mem : Bytes
  entry : BitVec 64

/-- The part of the current process that `exec` changes. -/
structure Proc where
  mm : Option Mm
  user : Bytes
  tf : TrapFrame

/-- What `do_execve` finds around it: the buffers of `kmalloc`, the descriptor that `sysfile_open`
answers with or its error, and the new address space or the error of building it. -/
structure World where
  give : ℕ → Bool
  fresh : ℕ → Bytes
  fd : ℤ
  image : Except ℤ Image

/-- The process with its new memory `mem` and the trap frame that `load_icode` fills in. -/
def Proc.loaded (img : Image) (mem : Bytes) (sp : ℕ) (sstatus : BitVec 64) : Proc :=
  ⟨some img.mm, mem, { TrapFrame.clear.set .sp (BitVec.ofNat 64 sp) with
    epc := img.entry, status := sstatus &&& ~~~sstatusBits }⟩

def loadIcode (image : Except ℤ Image) (tf : TrapFrame) (kargv : List Bytes) :
    Option (Except ℤ Proc) :=
  match image with
  | .error ret => some (.error ret)
  | .ok img =>
    (setupArgs kargv img.mem).map fun r ↦ .ok (Proc.loaded img r.1 r.2 tf.status)

/-- A system call returns, or it ends the process. -/
inductive Outcome
  | ret (r : ℤ) (p : Proc)
  | exit (code : ℤ)

/-- The call returns zero. -/
def Outcome.isZero : Outcome → Bool
  | .ret r _ => r = 0
  | .exit _ => false

/-- The size of `local_name`. -/
def localNameSize : ℕ := 15 + 1

/-- The copy of `name` in `do_execve`, when there is one: whether it succeeds, and the address space
after it. -/
def copyName (fuel : ℕ) (p : Proc) (name : ℕ) : Option (Bool × Option Mm) :=
  if name = 0 then some (true, p.mm)
  else (copyString p.user fuel p.mm Bytes.zero name localNameSize).map fun run ↦ (run.ret, run.mm)

def doExecve (w : World) (fuel : ℕ) (p : Proc) (name : ℕ) (argc : ℤ) (argv : ℕ) : Option Outcome :=
  if ¬(1 ≤ argc ∧ argc ≤ execMaxArgNum) then some (.ret (-Errno.inval.code) p)
  else
    match copyName fuel p name with
    | none => none
    | some (ok, mm) =>
      if ok = false then some (.ret (-Errno.inval.code) { p with mm := mm })
      else
        match copyKargv w.give w.fresh p.user fuel mm argc.toNat argv with
        | none => none
        | some (.error e, mm) => some (.ret (-e.code) { p with mm := mm })
        | some (.ok kargv, _) =>
          if w.fd < 0 then some (.exit w.fd)
          else
            match loadIcode w.image p.tf kargv with
            | none => none
            | some (.error ret) => some (.exit ret)
            | some (.ok p') => some (.ret 0 p')

def sysExec (w : World) (fuel : ℕ) (p : Proc) (arg : Fin 5 → BitVec 64) : Option Outcome :=
  doExecve w fuel p (arg 0).toNat (intOf (arg 1)) (arg 2).toNat

/-- `syscall`, with the table of system calls; none when it panics. The return value goes to the
trap frame as it is after the call. -/
def syscall (syscalls : ℕ → Option (Proc → (Fin 5 → BitVec 64) → Option Outcome)) (p : Proc) :
    Option Outcome :=
  let num := intOf (p.tf.gpr .a0)
  if 0 ≤ num then
    match syscalls num.toNat with
    | none => none
    | some f =>
      match f p ![p.tf.gpr .a1, p.tf.gpr .a2, p.tf.gpr .a3, p.tf.gpr .a4, p.tf.gpr .a5] with
      | some (.ret r p') => some (.ret r { p' with tf := p'.tf.set .a0 (BitVec.ofInt 64 r) })
      | out => out
  else none

/-- The number of `SYS_exec`. -/
def sysExecNum : ℕ := 4

/-- The arguments of `umain`: `_start` calls it with the registers as they come from the frame. -/
def umainArgs (tf : TrapFrame) : ℤ × ℕ := (intOf (tf.gpr .a0), (tf.gpr .a1).toNat)

/-! ## The stack of a program that was loaded -/

section Run

variable {w : World} {fuel : ℕ} {p p' : Proc} {image : Except ℤ Image} {tf : TrapFrame}
  {give : ℕ → Bool} {fresh : ℕ → Bytes} {user : Bytes} {mm mm' : Option Mm} {argc argv : ℕ}
  {kargv : List Bytes}

/-- **The arguments are laid out intact.** After `load_icode`, for any arguments that `copy_kargv`
accepts, `argc`, the array and the strings stand one above the other in the stack, at and above the
stack pointer, and the strings are copies of those of the caller. -/
theorem loadIcode_argsLaid (hargc : argc ≤ execMaxArgNum)
    (hcopy : copyKargv give fresh user fuel mm argc argv = some (.ok kargv, mm'))
    (img : Image) (tf : TrapFrame) :
    ∃ p sp uargv arg, loadIcode (.ok img) tf kargv = some (.ok p) ∧ (p.tf.gpr .sp).toNat = sp ∧
      ArgsLaid kargv img.mem p.user sp uargv arg ∧ kargv.length = argc ∧
      ∀ i (hi : i < kargv.length), CopyOf user (read64 user (argv + 8 * i)) kargv[i] := by
  obtain ⟨hlen, hall⟩ := copyKargv_ok hcopy
  have hterm : ∀ k ∈ kargv, k.EndsAt 0 (argLen k) ∧ argLen k ≤ execMaxArgLen := by
    intro k hk
    obtain ⟨i, hi, rfl⟩ := List.mem_iff_getElem.mp hk
    obtain ⟨hle, hend, hsame⟩ := hall i hi
    refine ⟨⟨?_, fun c hc ↦ ?_⟩, hle⟩
    · rw [Nat.zero_add, hsame _ le_rfl]
      exact hend.1
    · rw [Nat.zero_add, hsame c hc.le]
      exact hend.2 c hc
  obtain ⟨mem', sp, uargv, arg, hrun, hlaid⟩ := setupArgs_laid (hlen ▸ hargc) hterm img.mem
  have hword : sp < 2 ^ 64 := by
    have hbelow := hlaid.below
    have htop := hlaid.top
    rw [ustackTop, userTop] at htop
    omega
  refine ⟨Proc.loaded img mem' sp tf.status, sp, uargv, arg, ?_, ?_, hlaid, hlen, hall⟩
  · rw [loadIcode, hrun, Option.map_some]
  · have hsp : (Proc.loaded img mem' sp tf.status).tf.gpr .sp = BitVec.ofNat 64 sp := by
      simp [Proc.loaded, TrapFrame.set]
    rw [hsp, BitVec.toNat_ofNat, Nat.mod_eq_of_lt hword]

/-! ## What the program receives -/

/-- `exec` was called with the arguments that the registers of `p` give, and the program starts in
`p'`: `umain` is called with the same number of arguments and an array of copies of them. -/
structure Received (p p' : Proc) : Prop where
  argc : (umainArgs p'.tf).1 = intOf (p.tf.gpr .a2)
  argv : ∀ i : ℕ, i < intOf (p.tf.gpr .a2) →
    ∃ k, p.user.EndsAt (read64 p.user ((p.tf.gpr .a3).toNat + 8 * i)) k ∧
      ∀ j ≤ k, p'.user (read64 p'.user ((umainArgs p'.tf).2 + 8 * i) + j) =
        p.user (read64 p.user ((p.tf.gpr .a3).toNat + 8 * i) + j)

/-- A call of `do_execve` that returns zero has built a process with a cleared frame. -/
theorem doExecve_zero {name : ℕ} {c : ℤ} (hrun : doExecve w fuel p name c argv = some (.ret 0 p')) :
    1 ≤ c ∧ ∃ img mem sp, p' = Proc.loaded img mem sp p.tf.status := by
  rw [doExecve] at hrun
  by_cases hc : 1 ≤ c ∧ c ≤ execMaxArgNum
  swap
  · rw [if_pos hc] at hrun
    simp [Errno.code] at hrun
  rw [if_neg (not_not.mpr hc)] at hrun
  refine ⟨hc.1, ?_⟩
  cases hname : copyName fuel p name with
  | none => simp [hname] at hrun
  | some r =>
    obtain ⟨ok, mm₁⟩ := r
    simp only [hname] at hrun
    by_cases hok : ok = false
    · rw [if_pos hok] at hrun
      simp [Errno.code] at hrun
    · rw [if_neg hok] at hrun
      rcases hcopy : copyKargv w.give w.fresh p.user fuel mm₁ c.toNat argv with
        _ | ⟨e | kargv, mm₂⟩
      · simp [hcopy] at hrun
      · simp only [hcopy, Option.some.injEq, Outcome.ret.injEq] at hrun
        have hcode : 0 < e.code := by cases e <;> decide
        omega
      · simp only [hcopy] at hrun
        by_cases hfd : w.fd < 0
        · simp [hfd] at hrun
        · rw [if_neg hfd] at hrun
          rcases himage : w.image with e | img
          · simp [himage, loadIcode] at hrun
          · simp only [himage, loadIcode] at hrun
            rcases hsetup : setupArgs kargv img.mem with _ | ⟨mem, sp⟩
            · simp [hsetup] at hrun
            · simp only [hsetup, Option.map_some, Option.some.injEq, Outcome.ret.injEq,
                true_and] at hrun
              exact ⟨img, mem, sp, hrun.symm⟩

variable {syscalls : ℕ → Option (Proc → (Fin 5 → BitVec 64) → Option Outcome)}

/-- After a successful `exec` the program is called without arguments, though there was one. -/
theorem syscall_exec_umainArgs (hexec : syscalls sysExecNum = some (sysExec w fuel))
    (hnum : intOf (p.tf.gpr .a0) = sysExecNum) (hrun : syscall syscalls p = some (.ret 0 p')) :
    umainArgs p'.tf = (0, 0) ∧ 1 ≤ intOf (p.tf.gpr .a2) := by
  have hpos : (0 : ℤ) ≤ sysExecNum := Int.natCast_nonneg _
  rw [syscall, hnum, if_pos hpos, Int.toNat_natCast, hexec] at hrun
  dsimp only at hrun
  split at hrun
  · rename_i r q hcall
    simp only [Option.some.injEq, Outcome.ret.injEq] at hrun
    obtain ⟨rfl, rfl⟩ := hrun
    obtain ⟨hargc, img, mem, sp, rfl⟩ := doExecve_zero hcall
    refine ⟨?_, hargc⟩
    -- the frame was cleared, and then `a0` got the return value
    have ha1 :
        ((Proc.loaded img mem sp p.tf.status).tf.set .a0 (BitVec.ofInt 64 0)).gpr .a1 = 0 := by
      simp [Proc.loaded, TrapFrame.set, TrapFrame.clear]
    rw [umainArgs, ha1, TrapFrame.set_gpr_self]
    rfl
  · rename_i hcall
    exact absurd hrun (hcall 0 p')

/-- **The program does not get its arguments**, whatever they are. -/
theorem syscall_exec_not_received (hexec : syscalls sysExecNum = some (sysExec w fuel))
    (hnum : intOf (p.tf.gpr .a0) = sysExecNum) (hrun : syscall syscalls p = some (.ret 0 p')) :
    ¬Received p p' := by
  obtain ⟨hargs, hpos⟩ := syscall_exec_umainArgs hexec hnum hrun
  intro hrec
  have hargc := hrec.argc
  rw [hargs] at hargc
  omega

/-! ### A program with two arguments -/

/-- The memory of a caller: the array with two pointers at `0x200000`, the string `a` at `0x200100`
and the string `bc` behind it. -/
def callerMem : Bytes := fun i ↦
  if 0x200000 ≤ i then
    if i < 0x200100 then [0, 1, 0x20, 0, 0, 0, 0, 0, 2, 1, 0x20].getD (i - 0x200000) 0
    else [97, 0, 98, 99].getD (i - 0x200100) 0
  else 0

/-- There is memory for the buffers, the file is opened and the program is loaded. -/
def sampleWorld : World := ⟨fun _ ↦ true, fun _ ↦ Bytes.zero, 3, .ok ⟨twoMm, Bytes.zero, 0x800020⟩⟩

/-- The caller, with the registers of `exec("a", 2, argv)`. -/
def caller : Proc :=
  ⟨some twoMm, callerMem,
    (((TrapFrame.clear.set .a0 4).set .a1 0x200100).set .a2 2).set .a3 0x200000⟩

theorem copyKargv_caller : ∃ kargv mm',
    copyKargv sampleWorld.give sampleWorld.fresh callerMem 4098 (some twoMm) 2 0x200000 =
      some (.ok kargv, mm') := by
  have hok : (copyKargv sampleWorld.give sampleWorld.fresh callerMem 4098 (some twoMm) 2
      0x200000).any (fun r ↦ r.1.toBool) = true := by decide +kernel
  obtain ⟨⟨r, mm'⟩, hrun, hr⟩ := Option.any_eq_true _ _ |>.mp hok
  cases r with
  | error e => exact absurd hr Bool.false_ne_true
  | ok kargv => exact ⟨kargv, mm', hrun⟩

/-- `exec` succeeds for that caller. -/
theorem syscall_caller : ∃ p', syscall (fun _ ↦ some (sysExec sampleWorld 4098)) caller =
    some (.ret 0 p') := by
  have hok :
      (syscall (fun _ ↦ some (sysExec sampleWorld 4098)) caller).any Outcome.isZero = true := by
    decide +kernel
  obtain ⟨out, hrun, hout⟩ := Option.any_eq_true _ _ |>.mp hok
  cases out with
  | exit code => exact absurd hout Bool.false_ne_true
  | ret r p' =>
    obtain rfl : r = 0 := of_decide_eq_true hout
    exact ⟨p', hrun⟩

theorem loadIcode_argsLaid_sample : ∃ kargv p sp uargv arg,
    loadIcode sampleWorld.image caller.tf kargv = some (.ok p) ∧
      ArgsLaid kargv Bytes.zero p.user sp uargv arg ∧ kargv.length = 2 := by
  obtain ⟨kargv, mm', hcopy⟩ := copyKargv_caller
  obtain ⟨p, sp, uargv, arg, hload, -, hlaid, hlen, -⟩ :=
    loadIcode_argsLaid (by decide) hcopy ⟨twoMm, Bytes.zero, 0x800020⟩ caller.tf
  exact ⟨kargv, p, sp, uargv, arg, hload, hlaid, hlen⟩

theorem syscall_exec_sample : ∃ p', syscall (fun _ ↦ some (sysExec sampleWorld 4098)) caller =
    some (.ret 0 p') ∧ ¬Received caller p' := by
  obtain ⟨p', hrun⟩ := syscall_caller
  exact ⟨p', hrun, syscall_exec_not_received rfl (by decide) hrun⟩

/-- That caller passes two arguments, and the program is called with none. -/
theorem caller_argument_lost : ∃ p', syscall (fun _ ↦ some (sysExec sampleWorld 4098)) caller =
    some (.ret 0 p') ∧ ¬Received caller p' := by
  obtain ⟨p', hrun⟩ := syscall_caller
  obtain ⟨hargs, -⟩ := syscall_exec_umainArgs rfl (by decide) hrun
  refine ⟨p', hrun, fun hrec ↦ ?_⟩
  have hargc := hrec.argc
  rw [hargs] at hargc
  exact absurd hargc (by decide)

end Run

end Ucore.Exec
