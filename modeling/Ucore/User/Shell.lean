import Ucore.Lib.CString

/-!
# The command lines of the shell

`gettoken` and the parsing loop of `runcmd` of `user/sh.c`, on the line in memory. A word is ended
in place, by a zero that the next call of `gettoken` writes over what follows it.

## Tokens

What a line means is a relation on lists of characters: `SymFirst` and `WordFirst` say what its
first token is and what is left of the line behind it. `gettoken` is compared with it call by call.
`Left` says that the characters from the scan position on are the rest of the line; a call of
`gettoken` finds the first token of the rest and leaves the rest behind it, except for the byte that
it has yet to end the word with (`gettokens_lexes`).

## Redirections

`Orders` says, on the characters of a line alone, which redirections are in force: one is as soon as
its word was read, whatever follows the word. The calls of `reopen` are those for the redirections
that the line orders, in order and with none left out (`runcmd_orders`). A call passes the address
of the word, which is not ended at that time, so it gets the word of its redirection, if that is not
quoted, exactly when nothing follows the word on the line (`shell_names_iff`).
-/

namespace Ucore.Shell

open Bytes

def whitespace : List UInt8 := [32, 9, 13, 10]

/-- `SYMBOLS`: `<|>&;`. -/
def symbols : List UInt8 := [60, 124, 62, 38, 59]

/-- The character `"`. -/
def quote : UInt8 := 34

/-- The token of a word, `w`. -/
def wordToken : UInt8 := 119

/-! ## Tokens -/

/-- The loop of `gettoken` over blanks: each is made a zero. -/
def skipLoop : ℕ → Bytes → ℕ → Option (Bytes × ℕ)
  | 0, _, _ => none
  | fuel + 1, b, s =>
    if b s ∈ whitespace then skipLoop fuel (Function.update b s 0) (s + 1) else some (b, s)

/-- The loop of `gettoken` over a word: a quotation mark is made a blank. -/
def wordLoop : ℕ → Bytes → ℕ → Bool → Option (Bytes × ℕ)
  | 0, _, _, _ => none
  | fuel + 1, b, s, flag =>
    if b s ≠ 0 ∧ (flag = true ∨ b s ∉ whitespace ++ symbols) then
      if b s = quote then wordLoop fuel (Function.update b s 32) (s + 1) (!flag)
      else wordLoop fuel b (s + 1) flag
    else some (b, s)

/-- The line in memory, `*p1` and `*p2`. -/
structure Scan where
  buf : Bytes
  p1 : Option ℕ
  p2 : ℕ

/-- `*p1 = (*s != '\0' ? s : NULL)`. -/
def nextP1 (b : Bytes) (s : ℕ) : Option ℕ := if b s ≠ 0 then some s else none

def gettoken (fuel : ℕ) (st : Scan) : Option (UInt8 × Scan) :=
  match st.p1 with
  | none => some (0, st)
  | some s => do
    let r ← skipLoop fuel st.buf s
    if r.1 r.2 = 0 then some (0, { st with buf := r.1 })
    else if r.1 r.2 ∈ symbols then
      some (r.1 r.2, ⟨Function.update r.1 r.2 0, nextP1 r.1 (r.2 + 1), r.2⟩)
    else do
      let w ← wordLoop fuel r.1 r.2 false
      some (wordToken, ⟨w.1, nextP1 w.1 w.2, r.2⟩)

/-- Repeated calls of `gettoken` until it returns zero: the tokens with their `*p2`, and the line in
memory after the last call. -/
def gettokens (fuel : ℕ) : ℕ → Scan → Option (List (UInt8 × ℕ) × Bytes)
  | 0, _ => none
  | n + 1, st => do
    let r ← gettoken fuel st
    if r.1 = 0 then some ([], r.2.buf)
    else do
      let rest ← gettokens fuel n r.2
      some ((r.1, r.2.p2) :: rest.1, rest.2)

/-! ## Commands -/

/-- A call of `reopen`; the file name is a pointer into the line, as it is at that time. -/
structure Reopen where
  fd : ℕ
  flags : ℕ
  buf : Bytes
  filename : ℕ

/-- What the system calls return, in the order in which they are made. -/
structure World where
  reopen : ℕ → ℤ
  fork : ℕ → ℤ
  dup2 : ℕ → ℤ

/-- A process in `runcmd`. -/
structure Sh where
  scan : Scan
  argv : List ℕ
  calls : ℕ
  log : List Reopen

/-- Where the loop of `runcmd` ends. -/
inductive Stop
  /-- `return`. -/
  | ret (r : ℤ)
  /-- `goto runit`. -/
  | runit (argv : List ℕ)
  deriving DecidableEq, Repr

def execMaxArgNum : ℕ := 32

/-- The cases `<` and `>`: what is returned, if the loop does not go on. -/
def redirect (W : World) (fuel fd flags : ℕ) (sh : Sh) : Option (Option ℤ × Sh) := do
  let r ← gettoken fuel sh.scan
  if r.1 ≠ wordToken then some (some (-1), { sh with scan := r.2 })
  else
    let sh' : Sh := { sh with
      scan := r.2
      calls := sh.calls + 1
      log := sh.log ++ [⟨fd, flags, r.2.buf, r.2.p2⟩] }
    if W.reopen sh.calls ≠ 0 then some (some (W.reopen sh.calls), sh') else some (none, sh')

/-- Behind such a case the loop ends with `return`, or goes on as `next`. -/
def afterRedirect (next : Sh → Option (Stop × List Reopen)) (d : Option ℤ × Sh) :
    Option (Stop × List Reopen) :=
  match d.1 with
  | some ret => some (.ret ret, d.2.log)
  | none => next d.2

/-- The loop of `runcmd`, in the process that this call is about: how it ends, and the calls of
`reopen` on the way. -/
def runcmdLoop (W : World) (fuel : ℕ) : ℕ → Sh → Option (Stop × List Reopen)
  | 0, _ => none
  | n + 1, sh => do
    let r ← gettoken fuel sh.scan
    let sh := { sh with scan := r.2 }
    let t := { sh with calls := sh.calls + 1 }
    if r.1 = wordToken then
      if sh.argv.length = execMaxArgNum then some (.ret (-1), sh.log)
      else runcmdLoop W fuel n { sh with argv := sh.argv ++ [sh.scan.p2] }
    else if r.1 = 60 then do
      let d ← redirect W fuel 0 0 sh
      afterRedirect (runcmdLoop W fuel n) d
    else if r.1 = 62 then do
      -- `O_RDWR | O_TRUNC | O_CREAT`
      let d ← redirect W fuel 1 22 sh
      afterRedirect (runcmdLoop W fuel n) d
    else if r.1 = 124 then
      if W.fork sh.calls = 0 then
        if W.dup2 t.calls < 0 then some (.ret (W.dup2 t.calls), t.log)
        else runcmdLoop W fuel n { t with argv := [], calls := t.calls + 1 }
      else if W.fork sh.calls < 0 then some (.ret (W.fork sh.calls), t.log)
      else if W.dup2 t.calls < 0 then some (.ret (W.dup2 t.calls), t.log)
      else some (.runit t.argv, t.log)
    else if r.1 = 0 then some (.runit sh.argv, sh.log)
    else if r.1 = 59 then
      if W.fork sh.calls = 0 then some (.runit t.argv, t.log)
      else if W.fork sh.calls < 0 then some (.ret (W.fork sh.calls), t.log)
      else runcmdLoop W fuel n { t with argv := [] }
    else some (.ret (-1), sh.log)

/-- A line in memory. -/
def lineBuf (line : List UInt8) : Bytes := fun i ↦ line.getD i 0

/-- `runcmd` up to `runit`, with the rounds that suffice for the loops. -/
def runcmd (W : World) (line : List UInt8) : Option (Stop × List Reopen) :=
  runcmdLoop W (line.length + 1) (line.length + 1) ⟨⟨lineBuf line, some 0, 0⟩, [], 0, []⟩

/-! ## What the tokens of a line are -/

/-- A token. -/
inductive Token
  | word (text : List UInt8)
  | sym (c : UInt8)
  deriving DecidableEq, Repr

/-- What a word becomes in memory. -/
def text (raw : List UInt8) : List UInt8 := raw.map fun c ↦ if c = quote then 32 else c

/-- Whether a quotation is open behind these characters. -/
def quoted (flag : Bool) (cs : List UInt8) : Bool :=
  cs.foldl (fun f c ↦ if c = quote then !f else f) flag

/-- Blanks and special characters stand in quotations only. -/
def Inside (flag : Bool) : List UInt8 → Prop
  | [] => True
  | c :: cs =>
    (flag = true ∨ c ∉ whitespace ++ symbols) ∧ Inside (if c = quote then !flag else flag) cs

/-- A line starts with the word `raw`, and `rest` follows: the word ends with the line, or in front
of a blank or special character outside of a quotation. -/
structure IsWord (raw rest : List UInt8) : Prop where
  ne_nil : raw ≠ []
  inside : Inside false raw
  maximal : ∀ c cs, rest = c :: cs → c ∈ whitespace ++ symbols ∧ quoted false raw = false

/-- These are the tokens of a line, in order. -/
inductive Lexes : List UInt8 → List Token → Prop
  | done {blanks : List UInt8} (hblanks : ∀ c ∈ blanks, c ∈ whitespace) : Lexes blanks []
  | sym {blanks rest : List UInt8} {c : UInt8} {ts : List Token}
      (hblanks : ∀ c ∈ blanks, c ∈ whitespace) (hc : c ∈ symbols) (hrest : Lexes rest ts) :
      Lexes (blanks ++ c :: rest) (.sym c :: ts)
  | word {blanks raw rest : List UInt8} {ts : List Token}
      (hblanks : ∀ c ∈ blanks, c ∈ whitespace) (hraw : IsWord raw rest) (hrest : Lexes rest ts) :
      Lexes (blanks ++ (raw ++ rest)) (.word (text raw) :: ts)

/-- The string at a place in memory. -/
def StringAt (b : Bytes) : ℕ → List UInt8 → Prop
  | s, [] => b s = 0
  | s, c :: cs => b s = c ∧ c ≠ 0 ∧ StringAt b (s + 1) cs

/-- What a call has answered, seen in memory after the last call, is a token. -/
def Yields (b : Bytes) (r : UInt8 × ℕ) : Token → Prop
  | .word t => r.1 = wordToken ∧ StringAt b r.2 t
  | .sym c => r.1 = c

/-! ## What a line orders

The loop of `runcmd` looks at a line token by token. What it has to make of the line is said by
`Orders`, on the characters of the line alone: there are no calls of `gettoken` in it, no pointers
and no memory. A redirection is in force when its word was read, whatever follows the word, and its
file is opened before the next token is looked at. The system calls decide in which process the loop
goes on behind `|` and `;`, and whether it goes on at all. -/

/-- A redirection of a line: the descriptor, the flags for `open`, the word, and what follows the
word on the line. -/
structure Redirection where
  fd : ℕ
  flags : ℕ
  raw : List UInt8
  rest : List UInt8

/-- `<` is for descriptor 0 and `O_RDONLY`, `>` for descriptor 1 and
`O_RDWR | O_TRUNC | O_CREAT`. -/
def Redirects (c : UInt8) (fd flags : ℕ) : Prop :=
  c = 60 ∧ fd = 0 ∧ flags = 0 ∨ c = 62 ∧ fd = 1 ∧ flags = 22

/-- The next token is the word `raw`, and `rest` follows it. -/
def WordFirst (cs raw rest : List UInt8) : Prop :=
  ∃ blanks, cs = blanks ++ (raw ++ rest) ∧ (∀ c ∈ blanks, c ∈ whitespace) ∧ IsWord raw rest

/-- The next token is the special character `c`, and `rest` follows it. -/
def SymFirst (cs : List UInt8) (c : UInt8) (rest : List UInt8) : Prop :=
  ∃ blanks, cs = blanks ++ c :: rest ∧ (∀ c ∈ blanks, c ∈ whitespace) ∧ c ∈ symbols

/-- There is no token any more. -/
def Blank (cs : List UInt8) : Prop := ∀ c ∈ cs, c ∈ whitespace

/-- The redirections that `runcmd` has to make on a line, in order, after `k` system calls and with
`n` arguments read for the command at hand. -/
inductive Orders (W : World) : ℕ → ℕ → List UInt8 → List Redirection → Prop
  | done {k n : ℕ} {cs : List UInt8} (h : Blank cs) : Orders W k n cs []
  | full {k : ℕ} {cs raw rest : List UInt8} (h : WordFirst cs raw rest) :
      Orders W k execMaxArgNum cs []
  | arg {k n : ℕ} {cs raw rest : List UInt8} {rs : List Redirection} (h : WordFirst cs raw rest)
      (hn : n ≠ execMaxArgNum) (hrest : Orders W k (n + 1) rest rs) : Orders W k n cs rs
  /-- No word follows the special character. -/
  | noWord {k n fd flags : ℕ} {cs rest : List UInt8} {c : UInt8} (h : SymFirst cs c rest)
      (hc : Redirects c fd flags) (hrest : Blank rest ∨ ∃ c' rest', SymFirst rest c' rest') :
      Orders W k n cs []
  /-- The file is not opened. -/
  | failed {k n fd flags : ℕ} {cs rest raw rest' : List UInt8} {c : UInt8}
      (h : SymFirst cs c rest) (hc : Redirects c fd flags) (hword : WordFirst rest raw rest')
      (hret : W.reopen k ≠ 0) : Orders W k n cs [⟨fd, flags, raw, rest'⟩]
  | redirect {k n fd flags : ℕ} {cs rest raw rest' : List UInt8} {c : UInt8}
      {rs : List Redirection} (h : SymFirst cs c rest) (hc : Redirects c fd flags)
      (hword : WordFirst rest raw rest') (hret : W.reopen k = 0)
      (hrest : Orders W (k + 1) n rest' rs) : Orders W k n cs (⟨fd, flags, raw, rest'⟩ :: rs)
  /-- The child goes on behind `|`. -/
  | pipe {k n : ℕ} {cs rest : List UInt8} {rs : List Redirection} (h : SymFirst cs 124 rest)
      (hfork : W.fork k = 0) (hdup : 0 ≤ W.dup2 (k + 1)) (hrest : Orders W (k + 2) 0 rest rs) :
      Orders W k n cs rs
  | pipeEnd {k n : ℕ} {cs rest : List UInt8} (h : SymFirst cs 124 rest)
      (hend : W.fork k ≠ 0 ∨ W.dup2 (k + 1) < 0) : Orders W k n cs []
  /-- The parent goes on behind `;`. -/
  | semicolon {k n : ℕ} {cs rest : List UInt8} {rs : List Redirection} (h : SymFirst cs 59 rest)
      (hfork : 0 < W.fork k) (hrest : Orders W (k + 1) 0 rest rs) : Orders W k n cs rs
  | semicolonEnd {k n : ℕ} {cs rest : List UInt8} (h : SymFirst cs 59 rest)
      (hfork : W.fork k ≤ 0) : Orders W k n cs []
  /-- The character `&` is not a command that the loop knows. -/
  | unknown {k n : ℕ} {cs rest : List UInt8} (h : SymFirst cs 38 rest) : Orders W k n cs []

/-- The redirection that a call of `reopen` is for: its word is `raw`, and `rest` is what follows
the word on the line. -/
structure Target (line : List UInt8) (e : Reopen) (raw rest : List UInt8) : Prop where
  word : IsWord raw rest
  place : ∃ pre c blanks, line = pre ++ c :: (blanks ++ (raw ++ rest)) ∧
    (∀ c ∈ blanks, c ∈ whitespace) ∧ e.filename = pre.length + 1 + blanks.length ∧
    Redirects c e.fd e.flags

/-! ## Strings -/

section Strings

variable {b b' : Bytes} {s i : ℕ} {cs ds : List UInt8} {x : UInt8}

/-- There is one string at a place. -/
theorem StringAt.unique (h : StringAt b s cs) (h' : StringAt b s ds) : cs = ds := by
  induction cs generalizing s ds with
  | nil =>
    cases ds with
    | nil => rfl
    | cons d ds => exact absurd (h'.1.symm.trans h) h'.2.1
  | cons c cs ih =>
    cases ds with
    | nil => exact absurd (h.1.symm.trans h') h.2.1
    | cons d ds => rw [← h.1, ← h'.1, ih h.2.2 h'.2.2]

/-- A string depends on the memory from its start on. -/
theorem StringAt.congr (h : StringAt b s cs) (hb : ∀ j, s ≤ j → b' j = b j) : StringAt b' s cs := by
  induction cs generalizing s with
  | nil => exact (hb s le_rfl).trans h
  | cons c cs ih =>
    exact ⟨(hb s le_rfl).trans h.1, h.2.1, ih h.2.2 fun j hj ↦ hb j (Nat.le_of_succ_le hj)⟩

theorem StringAt.update (h : StringAt b s cs) (hi : i < s) :
    StringAt (Function.update b i x) s cs :=
  h.congr fun _ hj ↦ Function.update_of_ne (Nat.ne_of_gt (lt_of_lt_of_le hi hj)) _ _

/-- A string up to where another one starts. -/
theorem StringAt.append (hcs : ∀ j (hj : j < cs.length), b (s + j) = cs[j]) (hne : ∀ c ∈ cs, c ≠ 0)
    (h : StringAt b (s + cs.length) ds) : StringAt b s (cs ++ ds) := by
  induction cs generalizing s with
  | nil => exact h
  | cons c cs ih =>
    refine ⟨hcs 0 (Nat.succ_pos _), hne c List.mem_cons_self, ih (fun j hj ↦ ?_)
      (fun c hc ↦ hne c (List.mem_cons_of_mem _ hc)) ?_⟩
    · rw [Nat.add_assoc, Nat.add_comm 1 j]
      exact hcs (j + 1) (Nat.succ_lt_succ hj)
    · rw [Nat.add_assoc, Nat.add_comm 1]
      exact h

theorem stringAt_lineBuf {line : List UInt8} (h : ∀ c ∈ line, c ≠ 0) :
    StringAt (lineBuf line) 0 line := by
  have hall : StringAt (lineBuf line) 0 (line ++ []) := by
    refine StringAt.append (fun j hj ↦ ?_) h ?_
    · rw [Nat.zero_add, lineBuf, List.getD_eq_getElem?_getD, List.getElem?_eq_getElem hj,
        Option.getD_some]
    · rw [StringAt, Nat.zero_add, lineBuf, List.getD_eq_getElem?_getD,
        List.getElem?_eq_none le_rfl, Option.getD_none]
  rwa [List.append_nil] at hall

end Strings

/-! ## The loops of a call -/

section Loops

variable {b : Bytes} {s fuel : ℕ} {cs : List UInt8}

theorem zero_notMem_whitespace : (0 : UInt8) ∉ whitespace := by decide

/-- Blanks are skipped, and made zero. -/
theorem skipLoop_eq (h : StringAt b s cs) (hfuel : cs.length < fuel) :
    ∃ b' blanks rest, cs = blanks ++ rest ∧ (∀ c ∈ blanks, c ∈ whitespace) ∧
      (∀ c rest', rest = c :: rest' → c ∉ whitespace) ∧
      skipLoop fuel b s = some (b', s + blanks.length) ∧ StringAt b' (s + blanks.length) rest ∧
      (∀ i < s, b' i = b i) ∧ (blanks ≠ [] → b' s = 0) := by
  induction cs generalizing b s fuel with
  | nil =>
    obtain ⟨fuel, rfl⟩ := Nat.exists_eq_succ_of_ne_zero (Nat.ne_of_gt hfuel)
    refine ⟨b, [], [], rfl, by simp, by simp, ?_, h, fun _ _ ↦ rfl, fun hne ↦ absurd rfl hne⟩
    rw [skipLoop, show b s = 0 from h, if_neg zero_notMem_whitespace]
    rfl
  | cons c cs ih =>
    obtain ⟨fuel, rfl⟩ := Nat.exists_eq_succ_of_ne_zero (Nat.ne_of_gt (Nat.zero_lt_of_lt hfuel))
    rw [skipLoop, h.1]
    by_cases hc : c ∈ whitespace
    · obtain ⟨b', blanks, rest, rfl, hblanks, hrest, hrun, hstr, hbelow, -⟩ :=
        ih (h.2.2.update (x := 0) (Nat.lt_succ_self s)) (Nat.lt_of_succ_lt_succ hfuel)
      have hlen : s + 1 + blanks.length = s + (c :: blanks).length := by
        rw [List.length_cons]
        omega
      refine ⟨b', c :: blanks, rest, rfl, ?_, hrest, ?_, hlen ▸ hstr, fun i hi ↦ ?_, fun _ ↦ ?_⟩
      · intro x hx
        rcases List.mem_cons.mp hx with rfl | hx
        · exact hc
        · exact hblanks x hx
      · rw [if_pos hc, hrun, hlen]
      · rw [hbelow i (Nat.lt_succ_of_lt hi), Function.update_of_ne (Nat.ne_of_lt hi)]
      · rw [hbelow s (Nat.lt_succ_self s), Function.update_self]
    · rw [if_neg hc]
      refine ⟨b, [], c :: cs, rfl, by simp, ?_, rfl, h, fun _ _ ↦ rfl, fun hne ↦ absurd rfl hne⟩
      rintro c' rest' heq
      rw [← (List.cons.inj heq).1]
      exact hc

/-- What a word loop leaves in memory, from the state `flag` of the quotation on. -/
theorem wordLoop_eq (h : StringAt b s cs) (flag : Bool) (hfuel : cs.length < fuel) :
    ∃ b' raw rest, cs = raw ++ rest ∧ Inside flag raw ∧
      (∀ c rest', rest = c :: rest' → c ∈ whitespace ++ symbols ∧ quoted flag raw = false) ∧
      wordLoop fuel b s flag = some (b', s + raw.length) ∧
      (∀ j < raw.length, (text raw)[j]? = some (b' (s + j))) ∧
      StringAt b' (s + raw.length) rest ∧ (∀ i < s, b' i = b i) := by
  induction cs generalizing b s fuel flag with
  | nil =>
    obtain ⟨fuel, rfl⟩ := Nat.exists_eq_succ_of_ne_zero (Nat.ne_of_gt hfuel)
    refine ⟨b, [], [], rfl, trivial, by simp, ?_, by simp, h, fun _ _ ↦ rfl⟩
    rw [wordLoop, if_neg fun hcon ↦ hcon.1 h]
    rfl
  | cons c cs ih =>
    obtain ⟨fuel, rfl⟩ := Nat.exists_eq_succ_of_ne_zero (Nat.ne_of_gt (Nat.zero_lt_of_lt hfuel))
    by_cases hgo : flag = true ∨ c ∉ whitespace ++ symbols
    · -- one character, and then the rest of the word in the state behind it
      have hone : ∃ b₁, StringAt b₁ (s + 1) cs ∧ (∀ i < s, b₁ i = b i) ∧
          b₁ s = (if c = quote then 32 else c) ∧
          wordLoop (fuel + 1) b s flag
            = wordLoop fuel b₁ (s + 1) (if c = quote then !flag else flag) := by
        by_cases hq : c = quote
        · refine ⟨Function.update b s 32, h.2.2.update (Nat.lt_succ_self s), fun i hi ↦ ?_, ?_, ?_⟩
          · exact Function.update_of_ne (Nat.ne_of_lt hi) _ _
          · rw [Function.update_self, if_pos hq]
          · rw [wordLoop, h.1, if_pos ⟨h.2.1, hgo⟩, if_pos hq, if_pos hq]
        · refine ⟨b, h.2.2, fun _ _ ↦ rfl, ?_, ?_⟩
          · rw [if_neg hq, h.1]
          · rw [wordLoop, h.1, if_pos ⟨h.2.1, hgo⟩, if_neg hq, if_neg hq]
      obtain ⟨b₁, hstr₁, hbelow₁, hs₁, hrun₁⟩ := hone
      obtain ⟨b', raw, rest, rfl, hinside, hmax, hrun, hword, hstr, hbelow⟩ :=
        ih hstr₁ (if c = quote then !flag else flag) (Nat.lt_of_succ_lt_succ hfuel)
      have hlen : s + 1 + raw.length = s + (c :: raw).length := by
        rw [List.length_cons]
        omega
      refine ⟨b', c :: raw, rest, rfl, ⟨hgo, hinside⟩, hmax, ?_, fun j hj ↦ ?_, hlen ▸ hstr,
        fun i hi ↦ ?_⟩
      · rw [hrun₁, hrun, hlen]
      · cases j with
        | zero => exact congrArg some ((hbelow s (Nat.lt_succ_self s)).trans hs₁).symm
        | succ j =>
          have hj' : j < raw.length := Nat.lt_of_succ_lt_succ hj
          have hadd : s + (j + 1) = s + 1 + j := by omega
          rw [hadd]
          exact hword j hj'
      · rw [hbelow i (Nat.lt_succ_of_lt hi), hbelow₁ i hi]
    -- the word ends here: a separator outside quotation marks
    · refine ⟨b, [], c :: cs, rfl, trivial, ?_, ?_, by simp, h, fun _ _ ↦ rfl⟩
      swap
      · rw [wordLoop, h.1, if_neg fun hcon ↦ hgo hcon.2]
        rfl
      rintro c' rest' heq
      rw [not_or, not_not, Bool.not_eq_true] at hgo
      rw [← (List.cons.inj heq).1]
      exact ⟨hgo.2, hgo.1⟩

end Loops

/-! ## One call -/

/-- What is left of the line when a call starts. -/
def Left (st : Scan) (cs : List UInt8) : Prop :=
  (st.p1 = none ∧ cs = []) ∨ ∃ s, st.p1 = some s ∧ StringAt st.buf s cs

/-- What a call leaves alone, and that it writes a zero over a blank or special character that it
starts at. -/
structure Spares (st : Scan) (cs : List UInt8) (b : Bytes) : Prop where
  ended : st.p1 = none → b = st.buf
  below : ∀ s, st.p1 = some s → ∀ i < s, b i = st.buf i
  cut : ∀ s c cs', st.p1 = some s → cs = c :: cs' → c ∈ whitespace ++ symbols → b s = 0

/-- A call finds a special character. -/
structure FoundSym (st : Scan) (cs : List UInt8) (c : UInt8) (st' : Scan) (rest : List UInt8) :
    Prop where
  sym : c ∈ symbols
  split : ∃ blanks s', cs = blanks ++ c :: rest ∧ (∀ c ∈ blanks, c ∈ whitespace) ∧
    st'.p1 = nextP1 st'.buf s' ∧ StringAt st'.buf s' rest ∧
    ∀ s, st.p1 = some s → s' = s + blanks.length + 1

/-- A call finds a word. -/
structure FoundWord (st : Scan) (cs : List UInt8) (st' : Scan) (raw rest : List UInt8) : Prop where
  word : IsWord raw rest
  split : ∃ blanks, cs = blanks ++ (raw ++ rest) ∧ (∀ c ∈ blanks, c ∈ whitespace) ∧
    ∀ s, st.p1 = some s → st'.p2 = s + blanks.length
  next : st'.p1 = nextP1 st'.buf (st'.p2 + raw.length)
  rest : StringAt st'.buf (st'.p2 + raw.length) rest
  chars : ∀ j < raw.length, (text raw)[j]? = some (st'.buf (st'.p2 + j))

theorem left_nextP1 {st : Scan} {s : ℕ} {cs : List UInt8} (hp1 : st.p1 = nextP1 st.buf s)
    (h : StringAt st.buf s cs) : Left st cs := by
  cases cs with
  | nil => exact .inl ⟨hp1.trans (if_neg (not_not.mpr h)), rfl⟩
  | cons c cs =>
    have hne : st.buf s ≠ 0 := h.1 ▸ h.2.1
    exact .inr ⟨s, hp1.trans (if_pos hne), h⟩

/-- What a call answers: zero at the end of the line, a special character, or a word. -/
theorem gettoken_cases {st : Scan} {cs : List UInt8} {fuel : ℕ} (h : Left st cs)
    (hfuel : cs.length < fuel) :
    ∃ token st', gettoken fuel st = some (token, st') ∧ Spares st cs st'.buf ∧
      (token = 0 ∧ (∀ c ∈ cs, c ∈ whitespace) ∨
        (∃ rest, FoundSym st cs token st' rest) ∨
        token = wordToken ∧ ∃ raw rest, FoundWord st cs st' raw rest) := by
  rcases h with ⟨hnone, rfl⟩ | ⟨s, hs, hstr⟩
  · refine ⟨0, st, ?_, ⟨fun _ ↦ rfl, fun _ _ _ _ ↦ rfl, fun s c cs' _ hcs ↦ ?_⟩, .inl ⟨rfl, ?_⟩⟩
    · rw [gettoken, hnone]
    · cases hcs
    · exact fun c hc ↦ absurd hc List.not_mem_nil
  obtain ⟨b, blanks, rest, rfl, hblanks, hrest, hskip, hb, hbelow, hcut⟩ := skipLoop_eq hstr hfuel
  have hcall : gettoken fuel st = if b (s + blanks.length) = 0 then some (0, { st with buf := b })
      else if b (s + blanks.length) ∈ symbols then
        some (b (s + blanks.length), ⟨Function.update b (s + blanks.length) 0,
          nextP1 b (s + blanks.length + 1), s + blanks.length⟩)
      else (wordLoop fuel b (s + blanks.length) false).bind fun w ↦
        some (wordToken, ⟨w.1, nextP1 w.1 w.2, s + blanks.length⟩) := by
    rw [gettoken, hs]
    simp only [hskip]
    rfl
  have hlt : ∀ i < s, i < s + blanks.length := fun i hi ↦ Nat.lt_add_right _ hi
  cases rest with
  | nil =>
    -- only blanks are left
    have hzero : b (s + blanks.length) = 0 := hb
    rw [if_pos hzero] at hcall
    refine ⟨0, _, hcall, ⟨fun hnone ↦ ?_, fun s' hs' i hi ↦ ?_, fun s' c cs' hs' hcs _ ↦ ?_⟩,
      .inl ⟨rfl, fun c hc ↦ hblanks c (List.append_nil blanks ▸ hc)⟩⟩
    · rw [hs] at hnone
      cases hnone
    · obtain rfl := Option.some.inj (hs.symm.trans hs')
      exact hbelow i hi
    · obtain rfl := Option.some.inj (hs.symm.trans hs')
      refine hcut ?_
      rintro rfl
      cases hcs
  | cons c rest =>
    have hc : b (s + blanks.length) = c := hb.1
    rw [hc, if_neg hb.2.1] at hcall
    by_cases hsym : c ∈ symbols
    · rw [if_pos hsym] at hcall
      have hstr' : StringAt (Function.update b (s + blanks.length) 0)
          (s + blanks.length + 1) rest :=
        hb.2.2.update (Nat.lt_succ_self _)
      refine ⟨c, _, hcall, ⟨fun hnone ↦ ?_, fun s' hs' i hi ↦ ?_, fun s' c' cs' hs' hcs _ ↦ ?_⟩,
        .inr (.inl ⟨rest, hsym, blanks, s + blanks.length + 1, rfl, hblanks, ?_, hstr',
          fun s' hs' ↦ ?_⟩)⟩
      · rw [hs] at hnone
        cases hnone
      · obtain rfl := Option.some.inj (hs.symm.trans hs')
        exact (Function.update_of_ne (Nat.ne_of_lt (hlt i hi)) _ _).trans (hbelow i hi)
      · obtain rfl := Option.some.inj (hs.symm.trans hs')
        change Function.update b (s + blanks.length) 0 s = 0
        cases blanks with
        | nil => exact Function.update_self _ _ _
        | cons x blanks =>
          have hne : s ≠ s + (x :: blanks).length := by
            rw [List.length_cons]
            omega
          exact (Function.update_of_ne hne _ _).trans (hcut (by rintro ⟨⟩))
      · have hne : s + blanks.length + 1 ≠ s + blanks.length := Nat.succ_ne_self _
        change nextP1 b _ = nextP1 (Function.update b (s + blanks.length) 0) _
        rw [nextP1, nextP1, Function.update_of_ne hne]
      · rw [Option.some.inj (hs.symm.trans hs')]
    · rw [if_neg hsym] at hcall
      have hlen : (c :: rest).length < fuel := by
        rw [List.length_append] at hfuel
        omega
      obtain ⟨b', raw, rest', hsplit, hinside, hmax, hword, hchars, hstr', hbelow'⟩ :=
        wordLoop_eq hb false hlen
      rw [hword, Option.bind_some] at hcall
      have hspecial : c ∉ whitespace ++ symbols := fun hmem ↦
        (List.mem_append.mp hmem).elim (hrest c rest rfl) hsym
      have hraw : raw ≠ [] := by
        rintro rfl
        exact hspecial (hmax c rest (List.nil_append rest' ▸ hsplit).symm).1
      rw [hsplit]
      refine ⟨wordToken, _, hcall,
        ⟨fun hnone ↦ ?_, fun s' hs' i hi ↦ ?_, fun s' c' cs' hs' hcs hc' ↦ ?_⟩,
        .inr (.inr ⟨rfl, raw, rest', ⟨hraw, hinside, hmax⟩, ⟨blanks, rfl, hblanks, fun s' hs' ↦ ?_⟩,
          rfl, hstr', hchars⟩)⟩
      · rw [hs] at hnone
        cases hnone
      · obtain rfl := Option.some.inj (hs.symm.trans hs')
        exact (hbelow' i (hlt i hi)).trans (hbelow i hi)
      · obtain rfl := Option.some.inj (hs.symm.trans hs')
        cases blanks with
        | nil =>
          -- a word does not start with a special character
          rw [← hsplit, List.nil_append] at hcs
          exact absurd ((List.cons.inj hcs).1 ▸ hc') hspecial
        | cons x blanks =>
          have hlt' : s < s + (x :: blanks).length := by
            rw [List.length_cons]
            omega
          exact (hbelow' s hlt').trans (hcut (by rintro ⟨⟩))
      · rw [Option.some.inj (hs.symm.trans hs')]

/-! ## The tokens of a line -/

theorem FoundSym.left {st st' : Scan} {cs rest : List UInt8} {c : UInt8}
    (h : FoundSym st cs c st' rest) : Left st' rest := by
  obtain ⟨blanks, s', -, -, hp1, hstr, -⟩ := h.split
  exact left_nextP1 hp1 hstr

theorem FoundSym.length_lt {st st' : Scan} {cs rest : List UInt8} {c : UInt8}
    (h : FoundSym st cs c st' rest) : rest.length < cs.length := by
  obtain ⟨blanks, s', rfl, -⟩ := h.split
  rw [List.length_append, List.length_cons]
  omega

theorem FoundWord.left {st st' : Scan} {cs raw rest : List UInt8}
    (h : FoundWord st cs st' raw rest) : Left st' rest := left_nextP1 h.next h.rest

theorem FoundWord.length_lt {st st' : Scan} {cs raw rest : List UInt8}
    (h : FoundWord st cs st' raw rest) : rest.length < cs.length := by
  obtain ⟨blanks, rfl, -, -⟩ := h.split
  have hpos := List.length_pos_iff.mpr h.word.ne_nil
  rw [List.length_append, List.length_append]
  omega

theorem text_ne_zero {raw : List UInt8} (h : ∀ c ∈ raw, c ≠ 0) : ∀ c ∈ text raw, c ≠ 0 := by
  intro c hc
  obtain ⟨x, hx, rfl⟩ := List.mem_map.mp hc
  split
  · decide
  · exact h x hx

theorem StringAt.ne_zero {b : Bytes} {s : ℕ} {cs : List UInt8} (h : StringAt b s cs) :
    ∀ c ∈ cs, c ≠ 0 := by
  induction cs generalizing s with
  | nil => exact fun c hc ↦ absurd hc List.not_mem_nil
  | cons c cs ih =>
    intro x hx
    rcases List.mem_cons.mp hx with rfl | hx
    · exact h.2.1
    · exact ih h.2.2 x hx

theorem length_text (raw : List UInt8) : (text raw).length = raw.length := List.length_map _

/-- The characters of a special token are none of `0` and `w`. -/
theorem symbols_ne {c : UInt8} (h : c ∈ symbols) : c ≠ 0 ∧ c ≠ wordToken := by
  have hall : ∀ c ∈ symbols, c ≠ 0 ∧ c ≠ wordToken := by simp [symbols, wordToken]
  exact hall c h

theorem Left.p1_ne_none {st : Scan} {cs : List UInt8} (h : Left st cs) (hcs : 0 < cs.length) :
    st.p1 ≠ none := by
  rcases h with ⟨-, rfl⟩ | ⟨s, hs, -⟩
  · exact absurd hcs (Nat.not_lt_zero _)
  · rw [hs]
    rintro ⟨⟩

section Spares

variable {st st' : Scan} {cs rest : List UInt8} {b : Bytes} {s' : ℕ}

/-- Later calls leave alone what is in front of where they start. -/
theorem Spares.below_next (h : Spares st' rest b) (hp1 : st'.p1 = nextP1 st'.buf s') :
    ∀ i < s', b i = st'.buf i := by
  intro i hi
  by_cases hzero : st'.buf s' = 0
  · rw [h.ended (hp1.trans (if_neg (not_not.mpr hzero)))]
  · exact h.below s' (hp1.trans (if_pos hzero)) i hi

theorem Spares.trans (h : Spares st cs st'.buf) (h' : Spares st' rest b)
    (hp1 : st'.p1 = nextP1 st'.buf s') (hlt : ∀ s, st.p1 = some s → s < s')
    (hsome : st.p1 ≠ none) : Spares st cs b where
  ended hnone := absurd hnone hsome
  below s hs i hi :=
    (h'.below_next hp1 i (hi.trans (hlt s hs))).trans (h.below s hs i hi)
  cut s c cs' hs hcs hc := (h'.below_next hp1 s (hlt s hs)).trans (h.cut s c cs' hs hcs hc)

/-- A word is ended by later calls, if the end of the line does not end it. -/
theorem FoundWord.stringAt {raw : List UInt8} (h : FoundWord st cs st' raw rest)
    (h' : Spares st' rest b) (hraw : ∀ c ∈ raw, c ≠ 0) : StringAt b st'.p2 (text raw) := by
  have hall : StringAt b st'.p2 (text raw ++ []) := by
    refine StringAt.append (fun j hj ↦ ?_) (text_ne_zero hraw) ?_
    · have hj' : j < raw.length := by rwa [length_text] at hj
      rw [h'.below_next h.next _ (Nat.add_lt_add_left hj' _)]
      exact (List.getElem_of_getElem? (h.chars j hj')).2.symm
    · rw [length_text]
      have hend := h.rest
      cases hcs : rest with
      | nil =>
        rw [hcs] at hend
        have hnone : st'.p1 = none := h.next.trans (if_neg (not_not.mpr hend))
        rw [h'.ended hnone]
        exact hend
      | cons c cs' =>
        rw [hcs] at hend
        have hne : st'.buf (st'.p2 + raw.length) ≠ 0 := hend.1 ▸ hend.2.1
        exact h'.cut _ c cs' (h.next.trans (if_pos hne)) hcs (h.word.maximal c cs' hcs).1
  rwa [List.append_nil] at hall

theorem FoundWord.lt {raw : List UInt8} (h : FoundWord st cs st' raw rest) {s : ℕ}
    (hs : st.p1 = some s) : s < st'.p2 + raw.length := by
  obtain ⟨blanks, -, -, hp2⟩ := h.split
  have hpos := List.length_pos_iff.mpr h.word.ne_nil
  rw [hp2 s hs]
  omega

end Spares

/-- What repeated calls find on the rest of a line. -/
theorem gettokens_left {st : Scan} {cs : List UInt8} (h : Left st cs) (hne : ∀ c ∈ cs, c ≠ 0)
    {fuel n : ℕ} (hfuel : cs.length < fuel) (hn : cs.length < n) :
    ∃ found b toks, gettokens fuel n st = some (found, b) ∧ Lexes cs toks ∧
      List.Forall₂ (Yields b) found toks ∧ Spares st cs b := by
  induction n generalizing st cs with
  | zero => exact absurd hn (Nat.not_lt_zero _)
  | succ n ih =>
    obtain ⟨token, st', hcall, hspares, hcases⟩ := gettoken_cases h hfuel
    rcases hcases with ⟨rfl, hblanks⟩ | ⟨rest, hsym⟩ | ⟨rfl, raw, rest, hword⟩
    · refine ⟨[], st'.buf, [], ?_, .done hblanks, .nil, hspares⟩
      rw [gettokens, hcall]
      rfl
    · -- a special character
      have hshort := hsym.length_lt
      have hsome := h.p1_ne_none (Nat.zero_lt_of_lt hshort)
      obtain ⟨blanks, s', rfl, hblanks, hp1, -, hs'⟩ := hsym.split
      have hne' : ∀ c ∈ rest, c ≠ 0 := fun c hc ↦
        hne c (List.mem_append_right _ (List.mem_cons_of_mem _ hc))
      obtain ⟨found, b, toks, hrun, hlex, hyields, hspares'⟩ :=
        ih hsym.left hne' (hshort.trans hfuel) (by omega)
      refine ⟨(token, st'.p2) :: found, b, .sym token :: toks, ?_, .sym hblanks hsym.sym hlex,
        .cons rfl hyields, ?_⟩
      · rw [gettokens, hcall]
        simp only [Option.bind_eq_bind, Option.bind_some, if_neg (symbols_ne hsym.sym).1, hrun]
      · refine hspares.trans hspares' hp1 (fun s hs ↦ ?_) hsome
        rw [hs' s hs]
        omega
    · have hshort := hword.length_lt
      have hsome := h.p1_ne_none (Nat.zero_lt_of_lt hshort)
      obtain ⟨blanks, rfl, hblanks, hp2⟩ := hword.split
      have hne' : ∀ c ∈ rest, c ≠ 0 := fun c hc ↦
        hne c (List.mem_append_right _ (List.mem_append_right _ hc))
      obtain ⟨found, b, toks, hrun, hlex, hyields, hspares'⟩ :=
        ih hword.left hne' (hshort.trans hfuel) (by omega)
      refine ⟨(wordToken, st'.p2) :: found, b, .word (text raw) :: toks, ?_,
        .word hblanks hword.word hlex, .cons ⟨rfl, ?_⟩ hyields, ?_⟩
      · rw [gettokens, hcall]
        simp only [Option.bind_eq_bind, Option.bind_some, if_neg (show wordToken ≠ 0 by decide),
          hrun]
      · exact hword.stringAt hspares' fun c hc ↦
          hne c (List.mem_append_right _ (List.mem_append_left _ hc))
      · exact hspares.trans hspares' hword.next (fun s hs ↦ hword.lt hs) hsome

/-- Repeated calls of `gettoken` yield the tokens of a line, in order. -/
theorem gettokens_lexes {line : List UInt8} (hline : ∀ c ∈ line, c ≠ 0) :
    ∃ found b toks, gettokens (line.length + 1) (line.length + 1) ⟨lineBuf line, some 0, 0⟩
      = some (found, b) ∧ Lexes line toks ∧ List.Forall₂ (Yields b) found toks := by
  have hleft : Left ⟨lineBuf line, some 0, 0⟩ line := .inr ⟨0, rfl, stringAt_lineBuf hline⟩
  obtain ⟨found, b, toks, hrun, hlex, hyields, -⟩ :=
    gettokens_left hleft hline (Nat.lt_succ_self _) (Nat.lt_succ_self _)
  exact ⟨found, b, toks, hrun, hlex, hyields⟩

/-! ## Redirections -/

/-- When a word was just found, its string goes on to the end of the line. -/
theorem FoundWord.stringAt_now {st st' : Scan} {cs raw rest : List UInt8}
    (h : FoundWord st cs st' raw rest) (hraw : ∀ c ∈ raw, c ≠ 0) :
    StringAt st'.buf st'.p2 (text raw ++ rest) := by
  refine StringAt.append (fun j hj ↦ ?_) (text_ne_zero hraw) ?_
  · have hj' : j < raw.length := by rwa [length_text] at hj
    exact (List.getElem_of_getElem? (h.chars j hj')).2.symm
  · rw [length_text]
    exact h.rest

/-- A word without quotation marks is its own text. -/
theorem text_of_unquoted {raw : List UInt8} (h : quote ∉ raw) : text raw = raw := by
  have hid : ∀ c ∈ raw, (if c = quote then 32 else c) = id c := fun c hc ↦
    if_neg fun (heq : c = quote) ↦ h (heq ▸ hc)
  rw [text, List.map_congr_left hid, List.map_id]

/-- A call of `reopen` makes a redirection of the line, and the name it gets is the word together
with all that follows the word. -/
structure Answers (line : List UInt8) (e : Reopen) (r : Redirection) : Prop where
  fd : e.fd = r.fd
  flags : e.flags = r.flags
  target : Target line e r.raw r.rest
  name : StringAt e.buf e.filename (text r.raw ++ r.rest)

theorem FoundSym.symFirst {st st' : Scan} {cs rest : List UInt8} {c : UInt8}
    (h : FoundSym st cs c st' rest) : SymFirst cs c rest := by
  obtain ⟨blanks, -, hcs, hblanks, -⟩ := h.split
  exact ⟨blanks, hcs, hblanks, h.sym⟩

theorem FoundWord.wordFirst {st st' : Scan} {cs raw rest : List UInt8}
    (h : FoundWord st cs st' raw rest) : WordFirst cs raw rest := by
  obtain ⟨blanks, hcs, hblanks, -⟩ := h.split
  exact ⟨blanks, hcs, hblanks, h.word⟩

/-- What follows a token is part of the line. -/
theorem SymFirst.ne_zero {cs rest : List UInt8} {c : UInt8} (h : SymFirst cs c rest)
    (hne : ∀ c ∈ cs, c ≠ 0) : ∀ c ∈ rest, c ≠ 0 := by
  obtain ⟨blanks, rfl, -⟩ := h
  exact fun x hx ↦ hne x (List.mem_append_right _ (List.mem_cons_of_mem _ hx))

theorem WordFirst.ne_zero {cs raw rest : List UInt8} (h : WordFirst cs raw rest)
    (hne : ∀ c ∈ cs, c ≠ 0) : (∀ c ∈ raw, c ≠ 0) ∧ ∀ c ∈ rest, c ≠ 0 := by
  obtain ⟨blanks, rfl, -⟩ := h
  exact ⟨fun x hx ↦ hne x (List.mem_append_right _ (List.mem_append_left _ hx)),
    fun x hx ↦ hne x (List.mem_append_right _ (List.mem_append_right _ hx))⟩

/-- What is left is the end of the line, and the scan stands where it starts. -/
def Placed (line : List UInt8) (st : Scan) (cs : List UInt8) : Prop :=
  ∃ pre, line = pre ++ cs ∧ ∀ s, st.p1 = some s → s = pre.length

section Placed

variable {line cs rest raw : List UInt8} {st st' : Scan} {c : UInt8}

theorem Placed.sym (h : Placed line st cs) (hleft : Left st cs) (hf : FoundSym st cs c st' rest) :
    Placed line st' rest := by
  obtain ⟨pre, rfl, hpre⟩ := h
  have hsome := hleft.p1_ne_none (Nat.zero_lt_of_lt hf.length_lt)
  obtain ⟨s, hs⟩ := Option.ne_none_iff_exists'.mp hsome
  obtain ⟨blanks, s', rfl, -, hp1, -, hs'⟩ := hf.split
  refine ⟨pre ++ blanks ++ [c], by simp, fun t ht ↦ ?_⟩
  rw [hp1, nextP1] at ht
  split at ht
  · rw [← Option.some.inj ht, hs' s hs, hpre s hs]
    simp [Nat.add_assoc]
  · cases ht

theorem Placed.word (h : Placed line st cs) (hleft : Left st cs)
    (hf : FoundWord st cs st' raw rest) : Placed line st' rest := by
  obtain ⟨pre, rfl, hpre⟩ := h
  have hsome := hleft.p1_ne_none (Nat.zero_lt_of_lt hf.length_lt)
  obtain ⟨s, hs⟩ := Option.ne_none_iff_exists'.mp hsome
  obtain ⟨blanks, rfl, -, hp2⟩ := hf.split
  refine ⟨pre ++ blanks ++ raw, by simp, fun t ht ↦ ?_⟩
  rw [hf.next, nextP1] at ht
  split at ht
  · rw [← Option.some.inj ht, hp2 s hs, hpre s hs]
    simp [Nat.add_assoc]
  · cases ht

end Placed

/-- The call of `reopen` for a redirection. -/
theorem answers_word {line cs rest raw rest' : List UInt8} {st st₁ st₂ : Scan} {c : UInt8}
    {fd flags : ℕ} (hplaced : Placed line st cs) (hleft : Left st cs)
    (hsym : FoundSym st cs c st₁ rest) (hword : FoundWord st₁ rest st₂ raw rest')
    (hne : ∀ c ∈ cs, c ≠ 0) (hc : Redirects c fd flags) :
    Answers line ⟨fd, flags, st₂.buf, st₂.p2⟩ ⟨fd, flags, raw, rest'⟩ := by
  have hplaced₁ := hplaced.sym hleft hsym
  have hsome := hsym.left.p1_ne_none (Nat.zero_lt_of_lt hword.length_lt)
  obtain ⟨s, hs⟩ := Option.ne_none_iff_exists'.mp hsome
  obtain ⟨blanks, -, hcs, hblanks, -⟩ := hsym.split
  obtain ⟨blanks', hrest, hblanks', hp2⟩ := hword.split
  have hraw := (hword.wordFirst.ne_zero (hsym.symFirst.ne_zero hne)).1
  obtain ⟨pre, hline, -⟩ := hplaced
  obtain ⟨pre₁, hline₁, hpre₁⟩ := hplaced₁
  have hpre : pre₁ = pre ++ blanks ++ [c] := by
    have hboth : pre₁ ++ rest = (pre ++ blanks ++ [c]) ++ rest := by
      rw [← hline₁, hline, hcs]
      simp
    exact List.append_cancel_right hboth
  refine ⟨rfl, rfl, ⟨hword.word, pre ++ blanks, c, blanks', ?_, hblanks', ?_, hc⟩,
    hword.stringAt_now hraw⟩
  · rw [hline, hcs, hrest, List.append_assoc]
  · change st₂.p2 = _
    rw [hp2 s hs, hpre₁ s hs, hpre]
    simp [Nat.add_assoc]

/-- The case of a redirection: its word is looked for, and `reopen` is called if there is one. -/
theorem redirect_cases {line cs rest : List UInt8} {st : Scan} {c : UInt8} (sh : Sh) {fuel fd
    flags : ℕ} (W : World) (hplaced : Placed line st cs) (hleft : Left st cs)
    (hsym : FoundSym st cs c sh.scan rest) (hne : ∀ c ∈ cs, c ≠ 0) (hfuel : cs.length < fuel)
    (hc : Redirects c fd flags) :
    (∃ st', redirect W fuel fd flags sh = some (some (-1), { sh with scan := st' }) ∧
        (Blank rest ∨ ∃ c' rest', SymFirst rest c' rest')) ∨
      ∃ st' raw rest', FoundWord sh.scan rest st' raw rest' ∧
        Answers line ⟨fd, flags, st'.buf, st'.p2⟩ ⟨fd, flags, raw, rest'⟩ ∧
        redirect W fuel fd flags sh =
          some (if W.reopen sh.calls ≠ 0 then some (W.reopen sh.calls) else none,
            ⟨st', sh.argv, sh.calls + 1, sh.log ++ [⟨fd, flags, st'.buf, st'.p2⟩]⟩) := by
  obtain ⟨token, st', hcall, -, hcases⟩ := gettoken_cases hsym.left (hsym.length_lt.trans hfuel)
  have hstop : token ≠ wordToken →
      redirect W fuel fd flags sh = some (some (-1), { sh with scan := st' }) := by
    intro htoken
    rw [redirect, hcall]
    simp only [Option.bind_eq_bind, Option.bind_some]
    rw [if_pos htoken]
  rcases hcases with ⟨rfl, hblank⟩ | ⟨rest', hsym'⟩ | ⟨rfl, raw, rest', hword⟩
  · exact .inl ⟨st', hstop (by decide), .inl hblank⟩
  · exact .inl ⟨st', hstop (symbols_ne hsym'.sym).2, .inr ⟨token, rest', hsym'.symFirst⟩⟩
  · refine .inr ⟨st', raw, rest', hword, answers_word hplaced hleft hsym hword hne hc, ?_⟩
    rw [redirect, hcall]
    simp only [Option.bind_eq_bind, Option.bind_some, ne_eq, not_true_eq_false, if_false]
    by_cases hret : W.reopen sh.calls = 0
    · rw [if_neg (not_not.mpr hret), if_neg (not_not.mpr hret)]
    · rw [if_pos hret, if_pos hret]

/-- The loop ends, and the calls of `reopen` it has made are those for the redirections that the
rest of the line orders. -/
theorem runcmdLoop_orders {line cs : List UInt8} (W : World) (sh : Sh) {fuel n : ℕ}
    (hplaced : Placed line sh.scan cs) (hleft : Left sh.scan cs) (hne : ∀ c ∈ cs, c ≠ 0)
    (hfuel : cs.length < fuel) (hn : cs.length < n) :
    ∃ stop log rs, runcmdLoop W fuel n sh = some (stop, sh.log ++ log) ∧
      Orders W sh.calls sh.argv.length cs rs ∧ List.Forall₂ (Answers line) log rs := by
  induction n generalizing sh cs with
  | zero => exact absurd hn (Nat.not_lt_zero _)
  | succ n ih =>
    obtain ⟨token, st', hcall, -, hcases⟩ := gettoken_cases hleft hfuel
    rw [runcmdLoop, hcall]
    simp only [Option.bind_eq_bind, Option.bind_some]
    -- where the loop ends, nothing more is logged
    have hend : ∀ stop : Stop, Orders W sh.calls sh.argv.length cs [] → ∃ stop' log rs,
        some (stop, sh.log) = some (stop', sh.log ++ log) ∧
          Orders W sh.calls sh.argv.length cs rs ∧ List.Forall₂ (Answers line) log rs :=
      fun stop h ↦ ⟨stop, [], [], by rw [List.append_nil], h, .nil⟩
    rcases hcases with ⟨rfl, hblank⟩ | ⟨rest, hsym⟩ | ⟨rfl, raw, rest, hword⟩
    · exact hend _ (.done hblank)
    · have hplaced' := hplaced.sym hleft hsym
      have hshort := hsym.length_lt
      have hfirst := hsym.symFirst
      have hne' := hfirst.ne_zero hne
      have hredirect : ∀ fd flags, Redirects token fd flags → ∃ stop log rs,
          (redirect W fuel fd flags { sh with scan := st' }).bind
            (afterRedirect (runcmdLoop W fuel n)) = some (stop, sh.log ++ log) ∧
          Orders W sh.calls sh.argv.length cs rs ∧ List.Forall₂ (Answers line) log rs := by
        intro fd flags hc
        rcases redirect_cases { sh with scan := st' } W hplaced hleft hsym hne hfuel hc with
          ⟨st₂, hrun, hno⟩ | ⟨st₂, raw, rest', hword, hanswers, hrun⟩
        · rw [hrun]
          exact hend _ (.noWord hfirst hc hno)
        rw [hrun, Option.bind_some, afterRedirect]
        by_cases hret : W.reopen sh.calls = 0
        · obtain ⟨stop, log, rs, hloop, horders, hall⟩ := @ih rest'
            ⟨st₂, sh.argv, sh.calls + 1, sh.log ++ [⟨fd, flags, st₂.buf, st₂.p2⟩]⟩
            (hplaced'.word hsym.left hword) hword.left
            (hword.wordFirst.ne_zero hne').2 (by have := hword.length_lt; omega)
            (by have := hword.length_lt; omega)
          refine ⟨stop, ⟨fd, flags, st₂.buf, st₂.p2⟩ :: log, ⟨fd, flags, raw, rest'⟩ :: rs, ?_,
            .redirect hfirst hc hword.wordFirst hret horders, .cons hanswers hall⟩
          simp only [ne_eq, hret, not_true_eq_false, if_false]
          rw [hloop, List.append_assoc]
          rfl
        · refine ⟨.ret (W.reopen sh.calls), [⟨fd, flags, st₂.buf, st₂.p2⟩],
            [⟨fd, flags, raw, rest'⟩], ?_, .failed hfirst hc hword.wordFirst hret,
            .cons hanswers .nil⟩
          simp only [ne_eq, hret, not_false_eq_true, if_true]
      rw [if_neg (symbols_ne hsym.sym).2]
      have hmem := hsym.sym
      simp only [symbols, List.mem_cons, List.not_mem_nil, or_false] at hmem
      rcases hmem with rfl | rfl | rfl | rfl | rfl
      · rw [if_pos rfl]
        exact hredirect 0 0 (.inl ⟨rfl, rfl, rfl⟩)
      · -- a pipe: the child goes on with the line, and the parent runs what it has
        rw [if_neg (by decide), if_neg (by decide), if_pos rfl]
        by_cases hfork : W.fork sh.calls = 0
        · rw [if_pos hfork]
          by_cases hdup : W.dup2 (sh.calls + 1) < 0
          · rw [if_pos hdup]
            exact hend _ (.pipeEnd hfirst (.inr hdup))
          · rw [if_neg hdup]
            obtain ⟨stop, log, rs, hloop, horders, hall⟩ := @ih rest
              ⟨st', [], sh.calls + 1 + 1, sh.log⟩ hplaced' hsym.left hne' (hshort.trans hfuel)
              (by omega)
            exact ⟨stop, log, rs, hloop, .pipe hfirst hfork (not_lt.mp hdup) horders, hall⟩
        · rw [if_neg hfork]
          split
          · exact hend _ (.pipeEnd hfirst (.inl hfork))
          · split
            · exact hend _ (.pipeEnd hfirst (.inl hfork))
            · exact hend _ (.pipeEnd hfirst (.inl hfork))
      · rw [if_neg (by decide), if_pos rfl]
        exact hredirect 1 22 (.inr ⟨rfl, rfl, rfl⟩)
      · rw [if_neg (by decide), if_neg (by decide), if_neg (by decide), if_neg (by decide),
          if_neg (by decide)]
        exact hend _ (.unknown hfirst)
      · -- a semicolon: the parent goes on
        rw [if_neg (by decide), if_neg (by decide), if_neg (by decide), if_neg (by decide),
          if_pos rfl]
        by_cases hfork : W.fork sh.calls = 0
        · rw [if_pos hfork]
          exact hend _ (.semicolonEnd hfirst hfork.le)
        rw [if_neg hfork]
        by_cases hneg : W.fork sh.calls < 0
        · rw [if_pos hneg]
          exact hend _ (.semicolonEnd hfirst hneg.le)
        · rw [if_neg hneg]
          obtain ⟨stop, log, rs, hloop, horders, hall⟩ := @ih rest
            ⟨st', [], sh.calls + 1, sh.log⟩ hplaced' hsym.left hne' (hshort.trans hfuel) (by omega)
          exact ⟨stop, log, rs, hloop, .semicolon hfirst (by omega) horders, hall⟩
    · rw [if_pos rfl]
      have hshort := hword.length_lt
      have hfirst := hword.wordFirst
      by_cases hfull : sh.argv.length = execMaxArgNum
      · rw [if_pos hfull]
        exact hend _ (hfull ▸ .full hfirst)
      · rw [if_neg hfull]
        obtain ⟨stop, log, rs, hloop, horders, hall⟩ := @ih rest
          ⟨st', sh.argv ++ [st'.p2], sh.calls, sh.log⟩ (hplaced.word hleft hword) hword.left
          (hfirst.ne_zero hne).2 (hshort.trans hfuel) (by omega)
        rw [List.length_append, List.length_singleton] at horders
        exact ⟨stop, log, rs, hloop, .arg hfirst hfull horders, hall⟩

/-- The file name of a call of `reopen` is the given word. -/
def Names (e : Reopen) (raw : List UInt8) : Prop := StringAt e.buf e.filename raw

/-- An unquoted word is the name exactly when nothing follows it on the line. -/
theorem Answers.names_iff {line : List UInt8} {e : Reopen} {r : Redirection} (h : Answers line e r)
    (hquote : quote ∉ r.raw) : Names e r.raw ↔ r.rest = [] := by
  have hname := h.name
  rw [text_of_unquoted hquote] at hname
  constructor
  · intro hnames
    exact List.append_right_eq_self.mp (hname.unique hnames)
  · intro hrest
    rwa [hrest, List.append_nil] at hname

/-- A call of `reopen` is for the redirection `r` of the line; when the word of it is not quoted,
the name is the word exactly when nothing follows the word on the line. -/
def Opens (line : List UInt8) (e : Reopen) (r : Redirection) : Prop :=
  (e.fd = r.fd ∧ e.flags = r.flags) ∧ Target line e r.raw r.rest ∧
    (quote ∉ r.raw → (Names e r.raw ↔ r.rest = []))

/-- On any line, and whatever the system calls return, `runcmd` ends, and its calls of `reopen` are
those for the redirections that the line orders, each in its turn. -/
theorem runcmd_orders {line : List UInt8} (hline : ∀ c ∈ line, c ≠ 0) (W : World) :
    ∃ stop log rs, runcmd W line = some (stop, log) ∧ Orders W 0 0 line rs ∧
      List.Forall₂ (Opens line) log rs := by
  have hleft : Left ⟨lineBuf line, some 0, 0⟩ line := .inr ⟨0, rfl, stringAt_lineBuf hline⟩
  have hplaced : Placed line ⟨lineBuf line, some 0, 0⟩ line :=
    ⟨[], rfl, fun s hs ↦ (Option.some.inj hs).symm⟩
  obtain ⟨stop, log, rs, hrun, horders, hall⟩ := runcmdLoop_orders W
    ⟨⟨lineBuf line, some 0, 0⟩, [], 0, []⟩ hplaced hleft hline (Nat.lt_succ_self _)
    (Nat.lt_succ_self _)
  exact ⟨stop, log, rs, hrun, horders,
    hall.imp fun _ _ h ↦ ⟨⟨h.fd, h.flags⟩, h.target, h.names_iff⟩⟩

/-- The calls of `gettoken` yield the tokens of any line. The calls of `reopen` in `runcmd` are
those for the redirections that the line orders, in order and with none left out; and a call gets
the word of its redirection, if that is not quoted, exactly when the word ends the line. -/
theorem shell_names_iff {line : List UInt8} (hline : ∀ c ∈ line, c ≠ 0) :
    (∃ found b toks, gettokens (line.length + 1) (line.length + 1) ⟨lineBuf line, some 0, 0⟩
      = some (found, b) ∧ Lexes line toks ∧ List.Forall₂ (Yields b) found toks) ∧
    ∀ W, ∃ stop log rs, runcmd W line = some (stop, log) ∧ Orders W 0 0 line rs ∧
      List.Forall₂ (Opens line) log rs :=
  ⟨gettokens_lexes hline, runcmd_orders hline⟩

/-- System calls that succeed. -/
def succeeds : World := ⟨fun _ ↦ 0, fun _ ↦ 1, fun _ ↦ 1⟩

/-- On the line `<a` the file `a` is opened for descriptor 0. -/
theorem shell_names_last : ∃ stop e, runcmd succeeds [60, 97] = some (stop, [e]) ∧ e.fd = 0 ∧
    Names e [97] := by
  obtain ⟨stop, log, rs, hrun, -, hall⟩ := (@shell_names_iff [60, 97] (by simp)).2 succeeds
  have hlog : runcmd succeeds [60, 97] =
      some (.runit [], [⟨0, 0, Function.update (lineBuf [60, 97]) 0 0, 1⟩]) := rfl
  rw [hlog] at hrun
  cases hrun
  obtain ⟨r, rs, ⟨-, htarget, hnames⟩, -, rfl⟩ := List.forall₂_cons_left_iff.mp hall
  -- the word can only be the second character of the line
  have hraw : r.raw = [97] ∧ r.rest = [] := by
    obtain ⟨pre, c, blanks, hline, -, hplace, -⟩ := htarget.place
    have hpre : pre = [] ∧ blanks = [] := by
      rw [← List.length_eq_zero_iff, ← List.length_eq_zero_iff]
      dsimp only at hplace
      omega
    rw [hpre.1, hpre.2, List.nil_append, List.nil_append] at hline
    obtain ⟨-, hword⟩ := List.cons.inj hline
    rcases List.append_eq_singleton_iff.mp hword.symm with ⟨hnil, -⟩ | hraw
    · exact absurd hnil htarget.word.ne_nil
    · exact hraw
  have hunquoted : quote ∉ r.raw := by
    rw [hraw.1]
    decide
  exact ⟨_, _, hlog, rfl, hraw.1 ▸ (hnames hunquoted).mpr hraw.2⟩

/-- The call of `reopen` for the line `<a b`. -/
def badReopen : Reopen where
  fd := 0
  flags := 0
  buf := Function.update (lineBuf [60, 97, 32, 98]) 0 0
  filename := 1

/-- On the line `<a b` the file `a b` is opened. -/
theorem redirect_takes_rest :
    ¬∀ line : List UInt8, (∀ c ∈ line, c ≠ 0) → ∀ W stop log, runcmd W line = some (stop, log) →
      ∀ e ∈ log, ∀ raw rest, Target line e raw rest → quote ∉ raw → Names e raw := by
  intro hall
  have hrun : runcmd succeeds [60, 97, 32, 98] = some (.runit [3], [badReopen]) := rfl
  have htarget : Target [60, 97, 32, 98] badReopen [97] [32, 98] := by
    refine ⟨⟨by decide, by simp [Inside, whitespace, symbols], fun c cs hcs ↦ ?_⟩,
      [], 60, [], rfl, by simp, rfl, .inl ⟨rfl, rfl, rfl⟩⟩
    obtain ⟨rfl, -⟩ := List.cons.inj hcs
    decide
  have hnames := hall _ (by simp) succeeds _ _ hrun badReopen (List.mem_singleton_self _) _ _
    htarget (by decide)
  have hend : badReopen.buf 2 = 0 := hnames.2.2
  exact absurd hend (by decide)

end Ucore.Shell
