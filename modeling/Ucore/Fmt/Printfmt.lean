import Mathlib.Data.Nat.Digits.Defs
import Mathlib.Tactic
import Ucore.Lib.CString

/-!
# Formatted output

`vprintfmt` of `libs/printfmt.c`. The format is the list of its bytes, the terminating zero with
them, and a read anywhere else is a fault. `putch` is any function on a state of its own.

An escape is read into an `Item`, and `perform` prints it. The main result is `vprintfmt_eq`: a
run prints the characters of the items of its format, in order; `vprintfmt_ne_format` says that the
format is never read outside.
-/

namespace Ucore.Printfmt

open Bytes

/-- The byte of a character. -/
def chr (c : Char) : UInt8 := c.toUInt8

/-- The `int` that an `int` expression yields. -/
def wrap32 (x : ℤ) : ℤ := x.bmod (2 ^ 32)

/-- What a `va_list` holds: a number, of which `va_arg` may take the low half, or a pointer to
characters. -/
inductive Arg
  | num (v : BitVec 64)
  | str (p : Option CStr)

/-- What stops a run. -/
inductive Fault
  /-- The format is read outside its bytes. -/
  | format
  /-- `va_arg` finds no argument of its type. -/
  | args
  /-- `error_string` is read outside. -/
  | errorString
  /-- A loop has not ended in the rounds it was given. -/
  | rounds
  deriving DecidableEq, Repr

/-- A read of the format. -/
def fetch (fmt : List UInt8) (pos : ℕ) : Except Fault UInt8 :=
  match fmt[pos]? with
  | some c => .ok c
  | none => .error .format

/-- `va_arg(ap, int)`. -/
def vaInt : List Arg → Except Fault (BitVec 32 × List Arg)
  | .num v :: args => .ok (v.setWidth 32, args)
  | _ => .error .args

/-- `va_arg` of 64 bits. -/
def vaLong : List Arg → Except Fault (BitVec 64 × List Arg)
  | .num v :: args => .ok (v, args)
  | _ => .error .args

/-- `va_arg(ap, char *)`. -/
def vaStr : List Arg → Except Fault (Option CStr × List Arg)
  | .str p :: args => .ok (p, args)
  | _ => .error .args

def getuint (lflag : ℤ) (v : BitVec 64) : ℕ :=
  if 2 ≤ lflag then v.toNat
  else if lflag ≠ 0 then v.toNat
  else (v.setWidth 32).toNat

def getint (lflag : ℤ) (v : BitVec 64) : ℤ :=
  if 2 ≤ lflag then v.toInt
  else if lflag ≠ 0 then v.toInt
  else (v.setWidth 32).toInt

/-! ## Reading the format -/

/-- The variables that an escape starts afresh. -/
structure Spec where
  padc : UInt8 := chr ' '
  width : ℤ := -1
  precision : ℤ := -1
  lflag : ℤ := 0
  altflag : Bool := false

/-- The code at `process_precision`, with the value that `precision` has there. -/
def Spec.processPrecision (sp : Spec) (precision : ℤ) : Spec :=
  if sp.width < 0 then { sp with width := precision, precision := -1 }
  else { sp with precision := precision }

/-- A base in which numbers are printed. -/
structure Base where
  val : ℕ
  two_le : 2 ≤ val

/-- The bases of `%d` and `%u`, of `%o`, and of `%x` and `%p`. -/
def dec : Base := ⟨10, by decide⟩

@[inherit_doc dec]
def oct : Base := ⟨8, by decide⟩

@[inherit_doc dec]
def hex : Base := ⟨16, by decide⟩

/-- What there is to print. -/
inductive Item
  /-- A character: of the format, of `%c`, or a `%`. -/
  | char (c : UInt8)
  /-- `%e`. -/
  | error (err : BitVec 32)
  /-- `%s`. -/
  | string (sp : Spec) (p : Option CStr)
  /-- A number at the label `number`, after the characters `lead`. -/
  | number (lead : List UInt8) (num : ℕ) (base : Base) (width : ℤ) (padc : UInt8)

/-- The loop over the digits of a width, at the digit `ch`. -/
def readNumber (fmt : List UInt8) : ℕ → ℕ → ℤ → UInt8 → Except Fault (ℤ × ℕ)
  | 0, _, _, _ => .error .rounds
  | fuel + 1, pos, precision, ch => do
    let precision := wrap32 (precision * 10 + ch.toNat - (chr '0').toNat)
    let ch ← fetch fmt pos
    if ch < chr '0' ∨ chr '9' < ch then pure (precision, pos)
    else readNumber fmt fuel (pos + 1) precision ch

/-- `for (; fmt[-1] != '%'; fmt --)`. -/
def backUp (fmt : List UInt8) : ℕ → Except Fault ℕ
  | 0 => .error .format
  | pos + 1 => do
    let ch ← fetch fmt pos
    if ch ≠ chr '%' then backUp fmt pos else pure (pos + 1)

/-- The item of `%d` for the value `num`. -/
def signedItem (num : ℤ) (sp : Spec) : Item :=
  if num < 0 then .number [chr '-'] (-num % 2 ^ 64).toNat dec sp.width sp.padc
  else .number [] num.toNat dec sp.width sp.padc

/-- The cases of the switch that end it; `pos` is where `ch` was read. -/
def convert (fmt : List UInt8) (pos : ℕ) (ch : UInt8) (sp : Spec) (args : List Arg) :
    Except Fault (Item × ℕ × List Arg) :=
  if ch = chr 'c' then do
    let a ← vaInt args
    pure (.char ⟨a.1.setWidth 8⟩, pos + 1, a.2)
  else if ch = chr 'e' then do
    let a ← vaInt args
    pure (.error a.1, pos + 1, a.2)
  else if ch = chr 's' then do
    let a ← vaStr args
    pure (.string sp a.1, pos + 1, a.2)
  else if ch = chr 'd' then do
    let a ← vaLong args
    pure (signedItem (getint sp.lflag a.1) sp, pos + 1, a.2)
  else if ch = chr 'u' then do
    let a ← vaLong args
    pure (.number [] (getuint sp.lflag a.1) dec sp.width sp.padc, pos + 1, a.2)
  else if ch = chr 'o' then do
    let a ← vaLong args
    pure (.number [] (getuint sp.lflag a.1) oct sp.width sp.padc, pos + 1, a.2)
  else if ch = chr 'p' then do
    let a ← vaLong args
    pure (.number [chr '0', chr 'x'] a.1.toNat hex sp.width sp.padc, pos + 1, a.2)
  else if ch = chr 'x' then do
    let a ← vaLong args
    pure (.number [] (getuint sp.lflag a.1) hex sp.width sp.padc, pos + 1, a.2)
  else if ch = chr '%' then pure (.char ch, pos + 1, args)
  else do
    let pos ← backUp fmt pos
    pure (.char (chr '%'), pos, args)

/-- How a round of the switch ends. -/
inductive Next
  /-- `goto reswitch`. -/
  | again (pos : ℕ) (sp : Spec) (args : List Arg)
  /-- `break`. -/
  | done (r : Item × ℕ × List Arg)

/-- The switch. -/
def switch (fmt : List UInt8) (pos : ℕ) (sp : Spec) (args : List Arg) : Except Fault Next := do
  let ch ← fetch fmt pos
  if ch = chr '-' then pure (.again (pos + 1) { sp with padc := chr '-' } args)
  else if ch = chr '0' then pure (.again (pos + 1) { sp with padc := chr '0' } args)
  else if chr '1' ≤ ch ∧ ch ≤ chr '9' then do
    let r ← readNumber fmt (fmt.length + 1) (pos + 1) 0 ch
    pure (.again r.2 (sp.processPrecision r.1) args)
  else if ch = chr '*' then do
    let a ← vaInt args
    pure (.again (pos + 1) (sp.processPrecision a.1.toInt) a.2)
  else if ch = chr '.' then
    pure (.again (pos + 1) (if sp.width < 0 then { sp with width := 0 } else sp) args)
  else if ch = chr '#' then pure (.again (pos + 1) { sp with altflag := true } args)
  else if ch = chr 'l' then pure (.again (pos + 1) { sp with lflag := wrap32 (sp.lflag + 1) } args)
  else do
    let r ← convert fmt pos ch sp args
    pure (.done r)

/-- The rounds of the switch, up to the item of the escape. -/
def reswitch (fmt : List UInt8) :
    ℕ → ℕ → Spec → List Arg → Except Fault (Item × ℕ × List Arg)
  | 0, _, _, _ => .error .rounds
  | fuel + 1, pos, sp, args => do
    match ← switch fmt pos sp args with
    | .again pos sp args => reswitch fmt fuel pos sp args
    | .done r => pure r

/-- The next item, where there is one before the terminating zero. -/
def nextItem (fmt : List UInt8) (pos : ℕ) (args : List Arg) :
    Except Fault (Option (Item × ℕ × List Arg)) := do
  let ch ← fetch fmt pos
  if ch = chr '%' then do
    let r ← reswitch fmt (fmt.length + 1) (pos + 1) {} args
    pure (some r)
  else if ch = 0 then pure none
  else pure (some (.char ch, pos + 1, args))

/-- The items of a format, read as `vprintfmt` reads it. -/
def itemsLoop (fmt : List UInt8) : ℕ → ℕ → List Arg → Except Fault (List Item)
  | 0, _, _ => .error .rounds
  | fuel + 1, pos, args => do
    match ← nextItem fmt pos args with
    | none => pure []
    | some r => do
      let items ← itemsLoop fmt fuel r.2.1 r.2.2
      pure (r.1 :: items)

/-- The items of a format. -/
def itemsOf (fmt : List UInt8) (args : List Arg) : Except Fault (List Item) :=
  itemsLoop fmt (fmt.length + 1) 0 args

/-! ## Printing -/

def maxError : ℤ := 24

/-- The bytes of a text. -/
def text (s : String) : List UInt8 := s.toList.map chr

def errorString : ℕ → Option (List UInt8)
  | 1 => some (text "unspecified error")
  | 2 => some (text "bad process")
  | 3 => some (text "invalid parameter")
  | 4 => some (text "out of memory")
  | 5 => some (text "out of processes")
  | 6 => some (text "segmentation fault")
  | 8 => some (text "invalid elf file")
  | 9 => some (text "process is killed")
  | 10 => some (text "panic failure")
  | 13 => some (text "no such device")
  | 14 => some (text "device not available")
  | 15 => some (text "device/file is busy")
  | 16 => some (text "no such file or directory")
  | 17 => some (text "is a directory")
  | 18 => some (text "not a directory")
  | 19 => some (text "cross device link")
  | 20 => some (text "unimplemented feature")
  | 21 => some (text "illegal seek")
  | 22 => some (text "too many files are open")
  | 23 => some (text "file or directory already exists")
  | 24 => some (text "directory is not empty")
  | _ => none

/-- `"0123456789abcdef"`. -/
def hexDigits : List UInt8 :=
  [48, 49, 50, 51, 52, 53, 54, 55, 56, 57, 97, 98, 99, 100, 101, 102]

/-- The character of a digit. -/
def digitChar (d : ℕ) : UInt8 := hexDigits.getD d 0

section Sink

variable {σ : Type} (putch : σ → UInt8 → σ)

/-- A loop that prints `padc` a number of times. -/
def padLoop (padc : UInt8) : ℕ → σ → σ
  | 0, s => s
  | n + 1, s => padLoop padc n (putch s padc)

/-- `printnum`. The loop `while (-- width > 0)` prints `width - 1` times. -/
def printnum (num : ℕ) (base : Base) (width : ℤ) (padc : UInt8) (s : σ) : σ :=
  if _h : base.val ≤ num then
    putch (printnum (num / base.val) base (wrap32 (width - 1)) padc s) (digitChar (num % base.val))
  else putch (padLoop putch padc (wrap32 (width - 1)).toNat s) (digitChar (num % base.val))
termination_by num
decreasing_by
  have := base.two_le
  exact Nat.div_lt_self (by omega) (by omega)

/-- `strnlen(p, precision)`, the precision as a `size_t`. -/
def strnlen (p : List UInt8) (precision : ℤ) : ℕ := min p.length (precision % 2 ^ 64).toNat

/-- What `%s` shows of a character. -/
def shown (altflag : Bool) (ch : UInt8) : UInt8 :=
  if altflag = true ∧ (ch < chr ' ' ∨ chr '~' < ch) then chr '?' else ch

/-- The loop over the characters of a string: the width that is left, too. -/
def stringLoop (altflag : Bool) : List UInt8 → ℤ → ℤ → σ → ℤ × σ
  | [], _, width, s => (width, s)
  | ch :: p, precision, width, s =>
    if precision < 0 ∨ 0 ≤ precision - 1 then
      stringLoop altflag p (if precision < 0 then precision else precision - 1) (wrap32 (width - 1))
        (putch s (shown altflag ch))
    else (width, s)

/-- The case of `%s`, for the characters of the string. -/
def printString (sp : Spec) (p : List UInt8) (s : σ) : σ :=
  let r :=
    if 0 < sp.width ∧ sp.padc ≠ chr '-' then
      let width := wrap32 (sp.width - strnlen p sp.precision)
      stringLoop putch sp.altflag p sp.precision (min width 0) (padLoop putch sp.padc width.toNat s)
    else stringLoop putch sp.altflag p sp.precision sp.width s
  padLoop putch (chr ' ') r.1.toNat r.2

/-- `printfmt(putch, fd, putdat, "error %d", err)`. -/
def printErrorNumber (err : ℤ) (s : σ) : σ :=
  let s := (text "error ").foldl putch s
  printnum putch err.toNat dec (-1) (chr ' ') s

/-- An item is printed. -/
def perform : Item → σ → Except Fault σ
  | .char c, s => .ok (putch s c)
  | .error err, s =>
    let err := if err.toInt < 0 then wrap32 (-err.toInt) else err.toInt
    if maxError < err then .ok (printErrorNumber putch err s)
    else if err < 0 then .error .errorString
    else
      match errorString err.toNat with
      | none => .ok (printErrorNumber putch err s)
      | some p => .ok (printString putch {} p s)
  | .string sp p, s =>
    match p with
    | none => .ok (printString putch sp (text "(null)") s)
    | some p => .ok (printString putch sp p.val s)
  | .number lead num base width padc, s =>
    .ok (printnum putch num base width padc (lead.foldl putch s))

/-- The loop of `vprintfmt`. -/
def vprintfmtLoop (fmt : List UInt8) : ℕ → ℕ → List Arg → σ → Except Fault σ
  | 0, _, _, _ => .error .rounds
  | fuel + 1, pos, args, s => do
    match ← nextItem fmt pos args with
    | none => pure s
    | some r => do
      let s ← perform putch r.1 s
      vprintfmtLoop fmt fuel r.2.1 r.2.2 s

def vprintfmt (fmt : List UInt8) (args : List Arg) (s : σ) : Except Fault σ :=
  vprintfmtLoop putch fmt (fmt.length + 1) 0 args s

/-! ## What is printed -/

/-- The digits of a number, the first digit first. -/
def numeral (base : Base) (num : ℕ) : List UInt8 :=
  if num = 0 then [digitChar 0] else (Nat.digits base.val num).reverse.map digitChar

/-- The characters of `printnum`. -/
def numberChars (num : ℕ) (base : Base) (width : ℤ) (padc : UInt8) : List UInt8 :=
  List.replicate (wrap32 (width - (numeral base num).length)).toNat padc ++ numeral base num

/-- What `%s` takes of a string. -/
def taken (p : List UInt8) (precision : ℤ) : List UInt8 :=
  if precision < 0 then p else p.take precision.toNat

/-- The width behind the blanks in front of a string. -/
def frontWidth (sp : Spec) (p : List UInt8) : ℤ :=
  if 0 < sp.width ∧ sp.padc ≠ chr '-' then wrap32 (sp.width - strnlen p sp.precision) else 0

/-- The width behind a string: each of its characters takes one. -/
def backWidth (sp : Spec) (p : List UInt8) : ℤ :=
  (fun w ↦ wrap32 (w - 1))^[(taken p sp.precision).length]
    (if 0 < sp.width ∧ sp.padc ≠ chr '-' then min (frontWidth sp p) 0 else sp.width)

/-- The characters of `%s`. -/
def stringChars (sp : Spec) (p : List UInt8) : List UInt8 :=
  List.replicate (frontWidth sp p).toNat sp.padc ++ (taken p sp.precision).map (shown sp.altflag) ++
    List.replicate (backWidth sp p).toNat (chr ' ')

/-- The characters of `%e` for a number that is not negative. -/
def errorChars (err : ℕ) : List UInt8 :=
  match if maxError < err then none else errorString err with
  | none => text "error " ++ numberChars err dec (-1) (chr ' ')
  | some p => stringChars {} p

/-- The characters of an item. -/
def Item.chars : Item → List UInt8
  | .char c => [c]
  | .error err => errorChars err.toInt.natAbs
  | .string sp p => stringChars sp (p.elim (text "(null)") Subtype.val)
  | .number lead num base width padc => lead ++ numberChars num base width padc

/-- The item is not the error code whose negative is no `int`. -/
def Item.Defined : Item → Prop
  | .error err => err.toInt ≠ -2 ^ 31
  | _ => True

theorem signedItem_defined (num : ℤ) (sp : Spec) : (signedItem num sp).Defined := by
  unfold signedItem
  split_ifs
  · trivial
  · trivial

/-- The characters of a list of items. -/
def output (items : List Item) : List UInt8 := items.flatMap Item.chars

theorem digitChar_mod_of_lt {base : Base} {num : ℕ} (h : num < base.val) :
    numeral base num = [digitChar (num % base.val)] := by
  rw [numeral, Nat.mod_eq_of_lt h]
  split_ifs with hzero
  · rw [hzero]
  · rw [Nat.digits_of_lt _ _ hzero h, List.reverse_singleton, List.map_singleton]

/-- The last digit comes off at the end. -/
theorem numeral_of_le {base : Base} {num : ℕ} (h : base.val ≤ num) :
    numeral base num = numeral base (num / base.val) ++ [digitChar (num % base.val)] := by
  have hbase := base.two_le
  have hpos : 0 < num / base.val := Nat.div_pos h (by omega)
  rw [numeral, if_neg (by omega), numeral, if_neg hpos.ne', Nat.digits_def' hbase (by omega),
    List.reverse_cons, List.map_append, List.map_singleton]

theorem padLoop_eq (padc : UInt8) (n : ℕ) (s : σ) :
    padLoop putch padc n s = (List.replicate n padc).foldl putch s := by
  induction n generalizing s with
  | zero => rfl
  | succ n ih => rw [padLoop, ih, List.replicate_succ, List.foldl_cons]

theorem wrap32_lt (x : ℤ) : wrap32 x < 2 ^ 31 :=
  (Int.bmod_lt (by decide)).trans_le (by decide)

theorem wrap32_of_le {x : ℤ} (hlow : -2 ^ 31 ≤ x) (hhigh : x < 2 ^ 31) : wrap32 x = x :=
  Int.bmod_eq_of_le (by omega) (by omega)

theorem wrap32_sub_wrap32 (x y : ℤ) : wrap32 (wrap32 x - y) = wrap32 (x - y) :=
  Int.bmod_sub_bmod

/-- The padding goes before the first digit, one place less for each digit. -/
theorem printnum_eq (num : ℕ) (base : Base) (width : ℤ) (padc : UInt8) (s : σ) :
    printnum putch num base width padc s = (numberChars num base width padc).foldl putch s := by
  induction num using Nat.strong_induction_on generalizing width with
  | _ num ih =>
    have hbase := base.two_le
    rw [printnum]
    split_ifs with h
    · have hlen : (numeral base num).length = (numeral base (num / base.val)).length + 1 := by
        rw [numeral_of_le h, List.length_append, List.length_singleton]
      rw [ih _ (Nat.div_lt_self (by omega) hbase)]
      rw [numberChars, wrap32_sub_wrap32, numberChars, hlen, numeral_of_le h, ← List.append_assoc,
        List.foldl_concat, Nat.cast_succ, sub_sub,
        add_comm (1 : ℤ)]
    · rw [padLoop_eq, numberChars, digitChar_mod_of_lt (not_le.mp h), List.foldl_append,
        List.length_singleton, List.foldl_cons, List.foldl_nil, Nat.cast_one]

theorem stringLoop_eq (altflag : Bool) (p : List UInt8) (precision width : ℤ) (s : σ) :
    stringLoop putch altflag p precision width s =
      ((fun w ↦ wrap32 (w - 1))^[(taken p precision).length] width,
        ((taken p precision).map (shown altflag)).foldl putch s) := by
  induction p generalizing precision width s with
  | nil => simp [stringLoop, taken]
  | cons ch p ih =>
    have htaken : taken (ch :: p) precision =
        if precision < 0 ∨ 0 ≤ precision - 1 then
          ch :: taken p (if precision < 0 then precision else precision - 1) else [] := by
      unfold taken
      split_ifs with h1 h2 h3 h4 <;> try omega
      · rfl
      · rw [show precision.toNat = (precision - 1).toNat + 1 by omega, List.take_succ_cons]
      · rw [show precision.toNat = 0 by omega, List.take_zero]
    rw [stringLoop, htaken]
    by_cases h : precision < 0 ∨ 0 ≤ precision - 1
    · rw [if_pos h, if_pos h, ih]
      rfl
    · rw [if_neg h, if_neg h]
      rfl

theorem printString_eq (sp : Spec) (p : List UInt8) (s : σ) :
    printString putch sp p s = (stringChars sp p).foldl putch s := by
  rw [printString, stringChars, List.foldl_append, List.foldl_append, padLoop_eq]
  unfold backWidth frontWidth
  split_ifs with h
  · simp only [stringLoop_eq, padLoop_eq]
  · simp only [stringLoop_eq, Int.toNat_zero, List.replicate_zero, List.foldl_nil]

theorem printErrorNumber_eq (err : ℤ) (s : σ) :
    printErrorNumber putch err s =
      (text "error " ++ numberChars err.toNat dec (-1) (chr ' ')).foldl putch s := by
  rw [printErrorNumber, printnum_eq, List.foldl_append]

/-- The negative of an error code is an `int`, for all but one of them. -/
theorem abs_error {err : BitVec 32} (h : err.toInt ≠ -2 ^ 31) :
    (if err.toInt < 0 then wrap32 (-err.toInt) else err.toInt) = err.toInt.natAbs := by
  have hlow := BitVec.le_toInt err
  have hhigh := BitVec.toInt_lt (x := err)
  split_ifs with hneg
  · rw [wrap32, Int.bmod_eq_of_le] <;> omega
  · omega

/-- An item is printed character after character. -/
theorem perform_eq {it : Item} (h : it.Defined) (s : σ) :
    perform putch it s = .ok (it.chars.foldl putch s) := by
  cases it with
  | char c => rfl
  | error err =>
    rw [Item.Defined] at h
    simp only [perform, abs_error h, Item.chars, errorChars, Int.toNat_natCast, printErrorNumber_eq]
    by_cases hmax : maxError < err.toInt.natAbs
    · rw [if_pos hmax, if_pos hmax]
    · rw [if_neg hmax, if_neg hmax, if_neg (by omega)]
      cases errorString err.toInt.natAbs with
      | none => rfl
      | some p => simp only [printString_eq]
  | string sp p =>
    cases p <;> simp only [perform, printString_eq, Item.chars, Option.elim]
  | number lead num base width padc =>
    rw [perform, printnum_eq, Item.chars, List.foldl_append]

/-- The error code whose negative is no `int` stays negative. -/
theorem perform_undefined {it : Item} (h : ¬ it.Defined) (s : σ) :
    perform putch it s = .error .errorString := by
  cases it with
  | error err =>
    have hmin : err.toInt = -2 ^ 31 := not_not.mp h
    have herr : (if err.toInt < 0 then wrap32 (-err.toInt) else err.toInt) = -2 ^ 31 := by
      rw [hmin]
      decide
    simp only [perform, herr]
    rw [if_neg (by decide), if_pos (by decide)]
  | char c => exact absurd trivial h
  | string sp p => exact absurd trivial h
  | number lead num base width padc => exact absurd trivial h

end Sink

/-! ## The format is not left -/

/-- A string with its terminating zero. -/
def cbytes (fmt : CStr) : List UInt8 := fmt.val ++ [0]

/-- A value that satisfies `P`, or a fault that is not one of reading the format. -/
def Reads {α : Type} (P : α → Prop) : Except Fault α → Prop
  | .ok a => P a
  | .error f => f ≠ .format ∧ f ≠ .rounds

theorem Reads.bind {α β : Type} {P : α → Prop} {Q : β → Prop} {x : Except Fault α}
    {f : α → Except Fault β} (hx : Reads P x) (hf : ∀ a, P a → Reads Q (f a)) :
    Reads Q (x >>= f) := by
  cases x with
  | error e => exact hx
  | ok a => exact hf a hx

theorem Reads.ite {α : Type} {P : α → Prop} {c : Prop} [Decidable c] {x y : Except Fault α}
    (hx : c → Reads P x) (hy : ¬ c → Reads P y) : Reads P (if c then x else y) := by
  split_ifs with h
  · exact hx h
  · exact hy h

theorem vaInt_reads (args : List Arg) : Reads (fun _ ↦ True) (vaInt args) := by
  rcases args with _ | ⟨_ | _, _⟩
  exacts [⟨nofun, nofun⟩, trivial, ⟨nofun, nofun⟩]

theorem vaLong_reads (args : List Arg) : Reads (fun _ ↦ True) (vaLong args) := by
  rcases args with _ | ⟨_ | _, _⟩
  exacts [⟨nofun, nofun⟩, trivial, ⟨nofun, nofun⟩]

theorem vaStr_reads (args : List Arg) : Reads (fun _ ↦ True) (vaStr args) := by
  rcases args with _ | ⟨_ | _, _⟩
  exacts [⟨nofun, nofun⟩, ⟨nofun, nofun⟩, trivial]

section Progress

variable {fmt : CStr} {pos start : ℕ}

theorem fetch_reads (h : pos < (cbytes fmt).length) :
    Reads (fun c ↦ (cbytes fmt)[pos]? = some c) (fetch (cbytes fmt) pos) := by
  rw [fetch, List.getElem?_eq_getElem h]
  rfl

/-- A byte that is not zero has another behind it. -/
theorem succ_lt_of_ne_zero {c : UInt8} (h : (cbytes fmt)[pos]? = some c) (hc : c ≠ 0) :
    pos + 1 < (cbytes fmt).length := by
  obtain ⟨hlt, hget⟩ := List.getElem?_eq_some_iff.mp h
  rw [cbytes, List.length_append, List.length_singleton] at hlt ⊢
  by_contra hend
  have hpos : pos = fmt.val.length := by omega
  subst hpos
  exact hc (by simpa [cbytes] using hget.symm)

/-- The digits of a width end inside the format. -/
theorem readNumber_reads (fuel : ℕ) (hpos : pos < (cbytes fmt).length)
    (hfuel : (cbytes fmt).length < fuel + pos) (precision : ℤ) (ch : UInt8) :
    Reads (fun r ↦ pos ≤ r.2 ∧ r.2 < (cbytes fmt).length)
      (readNumber (cbytes fmt) fuel pos precision ch) := by
  induction fuel generalizing pos precision ch with
  | zero => omega
  | succ fuel ih =>
    refine (fetch_reads hpos).bind fun c hc ↦ Reads.ite (fun _ ↦ ⟨le_rfl, hpos⟩) fun hdigit ↦ ?_
    -- a digit is not the terminating zero
    have hzero : c ≠ 0 := by
      rintro rfl
      exact hdigit (.inl (by decide))
    have hrest := ih (succ_lt_of_ne_zero hc hzero) (by omega)
      (wrap32 (precision * 10 + ch.toNat - (chr '0').toNat)) c
    revert hrest
    cases readNumber (cbytes fmt) fuel (pos + 1) _ c with
    | error f => exact id
    | ok r => exact fun h ↦ ⟨by have := h.1; omega, h.2⟩

/-- Backing up stops behind the `%` of the escape, if not before. -/
theorem backUp_reads (hstart : (cbytes fmt)[start]? = some (chr '%')) (hlt : start < pos)
    (hpos : pos < (cbytes fmt).length) :
    Reads (fun p ↦ start < p ∧ p < (cbytes fmt).length) (backUp (cbytes fmt) pos) := by
  induction pos with
  | zero => omega
  | succ pos ih =>
    refine (fetch_reads (Nat.lt_of_succ_lt hpos)).bind fun c hc ↦ Reads.ite (fun hne ↦ ?_) fun _ ↦
      ⟨hlt, hpos⟩
    refine ih (lt_of_le_of_ne (Nat.le_of_lt_succ hlt) fun heq ↦ hne ?_) (Nat.lt_of_succ_lt hpos)
    rw [← heq, hstart] at hc
    exact (Option.some.inj hc).symm

/-- A round of the switch that ends it leaves the format behind `start`, inside the format; another
one goes on. -/
def Next.After (fmt : CStr) (start pos : ℕ) : Next → Prop
  | .again p _ _ => pos < p ∧ p < (cbytes fmt).length
  | .done r => start < r.2.1 ∧ r.2.1 < (cbytes fmt).length

theorem convert_reads (hstart : (cbytes fmt)[start]? = some (chr '%')) (hlt : start < pos)
    {ch : UInt8} (hch : (cbytes fmt)[pos]? = some ch) (sp : Spec) (args : List Arg) :
    Reads (fun r ↦ start < r.2.1 ∧ r.2.1 < (cbytes fmt).length)
      (convert (cbytes fmt) pos ch sp args) := by
  have hpos : pos < (cbytes fmt).length := (List.getElem?_eq_some_iff.mp hch).1
  have hnext : ∀ {c : UInt8}, c ≠ 0 → ch = c → start < pos + 1 ∧ pos + 1 < (cbytes fmt).length :=
    fun hc heq ↦ ⟨Nat.lt_succ_of_lt hlt, succ_lt_of_ne_zero hch (heq ▸ hc)⟩
  refine Reads.ite (fun h ↦ (vaInt_reads args).bind fun _ _ ↦ hnext (by decide) h) fun _ ↦ ?_
  refine Reads.ite (fun h ↦ (vaInt_reads args).bind fun _ _ ↦ hnext (by decide) h) fun _ ↦ ?_
  refine Reads.ite (fun h ↦ (vaStr_reads args).bind fun _ _ ↦ hnext (by decide) h) fun _ ↦ ?_
  refine Reads.ite (fun h ↦ (vaLong_reads args).bind fun _ _ ↦ hnext (by decide) h) fun _ ↦ ?_
  refine Reads.ite (fun h ↦ (vaLong_reads args).bind fun _ _ ↦ hnext (by decide) h) fun _ ↦ ?_
  refine Reads.ite (fun h ↦ (vaLong_reads args).bind fun _ _ ↦ hnext (by decide) h) fun _ ↦ ?_
  refine Reads.ite (fun h ↦ (vaLong_reads args).bind fun _ _ ↦ hnext (by decide) h) fun _ ↦ ?_
  refine Reads.ite (fun h ↦ (vaLong_reads args).bind fun _ _ ↦ hnext (by decide) h) fun _ ↦ ?_
  refine Reads.ite (fun h ↦ hnext (by decide) h) fun _ ↦ ?_
  -- an unknown character, perhaps the terminating zero
  exact (backUp_reads hstart hlt hpos).bind fun _ hp ↦ hp

theorem switch_reads (hstart : (cbytes fmt)[start]? = some (chr '%')) (hlt : start < pos)
    (hpos : pos < (cbytes fmt).length) (sp : Spec) (args : List Arg) :
    Reads (Next.After fmt start pos) (switch (cbytes fmt) pos sp args) := by
  refine (fetch_reads hpos).bind fun ch hch ↦ ?_
  have hnext : ∀ {c : UInt8}, c ≠ 0 → ch = c → pos < pos + 1 ∧ pos + 1 < (cbytes fmt).length :=
    fun hc heq ↦ ⟨Nat.lt_succ_self pos, succ_lt_of_ne_zero hch (heq ▸ hc)⟩
  refine Reads.ite (fun h ↦ hnext (by decide) h) fun _ ↦ ?_
  refine Reads.ite (fun h ↦ hnext (by decide) h) fun _ ↦ ?_
  refine Reads.ite (fun h ↦ ?_) fun _ ↦ ?_
  · have hzero : ch ≠ 0 := by
      rintro rfl
      exact absurd h.1 (by decide)
    refine (readNumber_reads _ (succ_lt_of_ne_zero hch hzero) (by omega) 0 ch).bind fun r hr ↦ ?_
    exact ⟨Nat.lt_of_succ_le hr.1, hr.2⟩
  refine Reads.ite (fun h ↦ (vaInt_reads args).bind fun _ _ ↦ hnext (by decide) h) fun _ ↦ ?_
  refine Reads.ite (fun h ↦ hnext (by decide) h) fun _ ↦ ?_
  refine Reads.ite (fun h ↦ hnext (by decide) h) fun _ ↦ ?_
  refine Reads.ite (fun h ↦ hnext (by decide) h) fun _ ↦ ?_
  exact (convert_reads hstart hlt hch sp args).bind fun _ hr ↦ hr

theorem reswitch_reads (hstart : (cbytes fmt)[start]? = some (chr '%')) (hlt : start < pos)
    (hpos : pos < (cbytes fmt).length) {fuel : ℕ} (hfuel : (cbytes fmt).length < fuel + pos)
    (sp : Spec) (args : List Arg) :
    Reads (fun r ↦ start < r.2.1 ∧ r.2.1 < (cbytes fmt).length)
      (reswitch (cbytes fmt) fuel pos sp args) := by
  induction fuel generalizing pos sp args with
  | zero => omega
  | succ fuel ih =>
    refine (switch_reads hstart hlt hpos sp args).bind fun n hn ↦ ?_
    cases n with
    | again p sp args => exact ih (hlt.trans hn.1) hn.2 (by have := hn.1; omega) sp args
    | done r => exact hn

/-- An item takes at least a byte of the format. -/
theorem nextItem_reads (hpos : pos < (cbytes fmt).length) (args : List Arg) :
    Reads (fun n ↦ ∀ r, n = some r → pos < r.2.1 ∧ r.2.1 < (cbytes fmt).length)
      (nextItem (cbytes fmt) pos args) := by
  refine (fetch_reads hpos).bind fun ch hch ↦ Reads.ite (fun h ↦ ?_) fun _ ↦ Reads.ite
    (fun _ ↦ nofun) fun hzero ↦ ?_
  · subst h
    refine (reswitch_reads hch (Nat.lt_succ_self pos) (succ_lt_of_ne_zero hch (by decide))
      (by omega) {} args).bind fun r hr ↦ ?_
    rintro _ ⟨⟩
    exact hr
  · rintro _ ⟨⟩
    exact ⟨Nat.lt_succ_self pos, succ_lt_of_ne_zero hch hzero⟩

theorem perform_reads {σ : Type} (putch : σ → UInt8 → σ) (it : Item) (s : σ) :
    Reads (fun _ ↦ True) (perform putch it s) := by
  by_cases h : it.Defined
  · rw [perform_eq putch h]
    trivial
  · rw [perform_undefined putch h]
    exact ⟨nofun, nofun⟩

theorem vprintfmtLoop_reads {σ : Type} (putch : σ → UInt8 → σ) {fuel : ℕ}
    (hpos : pos < (cbytes fmt).length) (hfuel : (cbytes fmt).length < fuel + pos)
    (args : List Arg) (s : σ) :
    Reads (fun _ ↦ True) (vprintfmtLoop putch (cbytes fmt) fuel pos args s) := by
  induction fuel generalizing pos args s with
  | zero => omega
  | succ fuel ih =>
    refine (nextItem_reads hpos args).bind fun n hn ↦ ?_
    cases n with
    | none => trivial
    | some r =>
      obtain ⟨hlt, hin⟩ := hn r rfl
      exact (perform_reads putch r.1 s).bind fun s _ ↦ ih hin (by omega) r.2.2 s

end Progress

/-- A run ends, and reads the format up to its terminating zero only, whatever the format and the
arguments. -/
theorem vprintfmt_reads {σ : Type} (putch : σ → UInt8 → σ) (fmt : CStr) (args : List Arg) (s : σ) :
    Reads (fun _ ↦ True) (vprintfmt putch (cbytes fmt) args s) :=
  vprintfmtLoop_reads putch (by simp [cbytes]) (by omega) args s

/-- The loop prints the items of the format. -/
theorem vprintfmtLoop_eq {σ : Type} (putch : σ → UInt8 → σ) {fmt : List UInt8} {fuel pos : ℕ}
    {args : List Arg} {items : List Item} (h : itemsLoop fmt fuel pos args = .ok items) (s : σ) :
    vprintfmtLoop putch fmt fuel pos args s = items.foldlM (fun s it ↦ perform putch it s) s := by
  induction fuel generalizing pos args items s with
  | zero => exact absurd h nofun
  | succ fuel ih =>
    rw [itemsLoop] at h
    rw [vprintfmtLoop]
    cases hn : nextItem fmt pos args with
    | error f =>
      rw [hn] at h
      exact absurd h nofun
    | ok n =>
      rw [hn] at h
      cases n with
      | none =>
        cases h
        rfl
      | some r =>
        change (itemsLoop fmt fuel r.2.1 r.2.2 >>= fun items ↦ pure (r.1 :: items)) = _ at h
        cases hrest : itemsLoop fmt fuel r.2.1 r.2.2 with
        | error f =>
          rw [hrest] at h
          exact absurd h nofun
        | ok rest =>
          rw [hrest] at h
          cases h
          rw [List.foldlM_cons]
          exact bind_congr fun s ↦ ih hrest s

theorem foldlM_perform {σ : Type} (putch : σ → UInt8 → σ) {items : List Item}
    (h : ∀ it ∈ items, it.Defined) (s : σ) :
    items.foldlM (fun s it ↦ perform putch it s) s = .ok ((output items).foldl putch s) := by
  induction items generalizing s with
  | nil => rfl
  | cons it items ih =>
    rw [List.foldlM_cons, perform_eq putch (h it List.mem_cons_self)]
    refine (ih (fun it hit ↦ h it (List.mem_cons_of_mem _ hit)) _).trans ?_
    rw [output, output, List.flatMap_cons, List.foldl_append]

theorem foldlM_perform_undefined {σ : Type} (putch : σ → UInt8 → σ) {items : List Item}
    (h : ¬ ∀ it ∈ items, it.Defined) (s : σ) :
    items.foldlM (fun s it ↦ perform putch it s) s = .error .errorString := by
  induction items generalizing s with
  | nil => exact absurd (by simp) h
  | cons it items ih =>
    rw [List.foldlM_cons]
    by_cases hit : it.Defined
    · rw [perform_eq putch hit]
      exact ih (fun hall ↦ h (List.forall_mem_cons.mpr ⟨hit, hall⟩)) _
    · rw [perform_undefined putch hit]
      rfl

/-- A run prints the characters of the items of its format, in order. -/
theorem vprintfmt_eq {σ : Type} (putch : σ → UInt8 → σ) {fmt : List UInt8} {args : List Arg}
    {items : List Item} (hitems : itemsOf fmt args = .ok items) (h : ∀ it ∈ items, it.Defined)
    (s : σ) : vprintfmt putch fmt args s = .ok ((output items).foldl putch s) :=
  (vprintfmtLoop_eq putch hitems s).trans (foldlM_perform putch h s)

theorem vprintfmt_undefined {σ : Type} (putch : σ → UInt8 → σ) {fmt : List UInt8}
    {args : List Arg} {items : List Item} (hitems : itemsOf fmt args = .ok items)
    (h : ¬ ∀ it ∈ items, it.Defined) (s : σ) :
    vprintfmt putch fmt args s = .error .errorString :=
  (vprintfmtLoop_eq putch hitems s).trans (foldlM_perform_undefined putch h s)

/-- The characters that `vprintfmt` prints. -/
def printed (fmt : List UInt8) (args : List Arg) : Except Fault (List UInt8) :=
  vprintfmt (fun out ch ↦ out ++ [ch]) fmt args []

theorem foldl_append_singleton (out s : List UInt8) :
    out.foldl (fun out ch ↦ out ++ [ch]) s = s ++ out := by
  induction out generalizing s with
  | nil => exact (List.append_nil s).symm
  | cons c out ih => rw [List.foldl_cons, ih, List.append_assoc, List.singleton_append]

/-- What is printed does not depend on the sink. -/
theorem printed_eq {fmt : List UInt8} {args : List Arg} {items : List Item}
    (hitems : itemsOf fmt args = .ok items) (h : ∀ it ∈ items, it.Defined) :
    printed fmt args = .ok (output items) := by
  rw [printed, vprintfmt_eq _ hitems h, foldl_append_singleton, List.nil_append]

end Ucore.Printfmt
