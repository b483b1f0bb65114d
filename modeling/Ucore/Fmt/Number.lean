import Mathlib.Data.List.DropRight
import Mathlib.Data.Nat.Digits.Lemmas
import Ucore.Fmt.Printfmt
import Ucore.Lib.Prog

/-!
# Formatted numbers

What `vprintfmt` prints for a directive that formats a number: any pad flag, width, length modifier
and base, and any value. `printnum` pads the digits, but the sign stands in front of the padding and
is not counted, and the flag `-` is itself the character that pads.

## What is asked for

A directive asks for the numeral of the value in the type that the length modifier names, in a field
of at least the width, padded on the side that the flag says. `Printed` says that of the characters:
there are as many as the width, or as the numeral has if that is more, they are a sign, digits and
padding in the order of the flag, and reading them back gives the value.

## What is printed

The directive is read into an `Item` first (`itemsOf_directive`), and what the item prints is a
sign, padding and digits. For a value that is not negative the sign is empty, and padding with
spaces or zeros is as asked; in the other cases it is as asked where no padding is needed.

The main result, `number_printed_iff`, gives the exact condition.
-/

namespace Ucore.Printfmt

/-! ## Directives -/

/-- The pad flags. -/
inductive Flag
  | none
  | zero
  | left
  deriving DecidableEq, Repr

/-- The width of a directive. -/
inductive Width
  | absent
  | literal (n : ℕ) (pos : 0 < n) (fits : n < 2 ^ 31)
  | star (w : BitVec 32)

/-- The length modifiers: none, `l` and `ll`. -/
inductive LengthMod
  | int
  | long
  | longLong
  deriving DecidableEq, Repr

/-- The conversions of numbers. -/
inductive Conv
  | d
  | u
  | o
  | x
  deriving DecidableEq, Repr

def Flag.chars : Flag → List UInt8
  | .none => []
  | .zero => [chr '0']
  | .left => [chr '-']

/-- The character with which a flag pads. -/
def Flag.padc : Flag → UInt8
  | .none => chr ' '
  | .zero => chr '0'
  | .left => chr '-'

/-- The digits in which a literal width is written. -/
def decimalDigits (n : ℕ) : List ℕ := (Nat.digits 10 n).reverse

def Width.chars : Width → List UInt8
  | .absent => []
  | .literal n _ _ => (decimalDigits n).map digitChar
  | .star _ => [chr '*']

/-- The arguments that the width takes. -/
def Width.args : Width → List Arg
  | .star w => [.num (w.setWidth 64)]
  | _ => []

/-- The width that is asked for, `-1` where there is none. -/
def Width.value : Width → ℤ
  | .absent => -1
  | .literal n _ _ => n
  | .star w => w.toInt

def LengthMod.chars : LengthMod → List UInt8
  | .int => []
  | .long => [chr 'l']
  | .longLong => [chr 'l', chr 'l']

def Conv.char : Conv → UInt8
  | .d => chr 'd'
  | .u => chr 'u'
  | .o => chr 'o'
  | .x => chr 'x'

def Conv.base : Conv → Base
  | .d | .u => dec
  | .o => oct
  | .x => hex

/-- The format that consists of a directive. -/
def directive (f : Flag) (w : Width) (l : LengthMod) (c : Conv) : List UInt8 :=
  chr '%' :: (f.chars ++ (w.chars ++ (l.chars ++ [c.char, 0])))

/-- The value of an argument, in the type that the modifier and the conversion name. -/
def valueOf (l : LengthMod) (c : Conv) (a : BitVec 64) : ℤ :=
  match c, l with
  | .d, .int => (a.setWidth 32).toInt
  | .d, _ => a.toInt
  | _, .int => (a.setWidth 32).toNat
  | _, _ => a.toNat

/-! ## What is asked for -/

/-- The sign of a numeral. -/
def sign (v : ℤ) : List UInt8 := if v < 0 then [chr '-'] else []

/-- The numeral of a number. -/
def signed (base : Base) (v : ℤ) : List UInt8 := sign v ++ numeral base v.natAbs

/-- A sign, digits and `n` characters of padding in the order of the flag. -/
def Flag.lay (f : Flag) (n : ℕ) (s ds : List UInt8) : List UInt8 :=
  match f with
  | .none => List.replicate n (chr ' ') ++ (s ++ ds)
  | .zero => s ++ (List.replicate n (chr '0') ++ ds)
  | .left => s ++ ds ++ List.replicate n (chr ' ')

/-- The padding is removed; zeros in front of a numeral do no harm. -/
def Flag.strip (f : Flag) (out : List UInt8) : List UInt8 :=
  match f with
  | .none => out.dropWhile (· == chr ' ')
  | .zero => out
  | .left => out.rdropWhile (· == chr ' ')

/-- Digits are read. -/
def parseDigits (base : ℕ) : List UInt8 → ℕ → Option ℕ
  | [], k => some k
  | c :: cs, k =>
    if hexDigits.idxOf c < base then parseDigits base cs (k * base + hexDigits.idxOf c) else none

/-- A numeral is read. -/
def parseNumeral (base : ℕ) : List UInt8 → Option ℤ
  | [] => none
  | c :: cs =>
    if c = chr '-' then (parseDigits base cs 0).map fun k : ℕ ↦ -(k : ℤ)
    else (parseDigits base (c :: cs) 0).map fun k : ℕ ↦ (k : ℤ)

/-- The characters `out` are a number as it was asked for. -/
structure Printed (f : Flag) (w : ℤ) (base : Base) (v : ℤ) (out : List UInt8) : Prop where
  length : (out.length : ℤ) = max w (signed base v).length
  layout : ∃ n, out = f.lay n (sign v) (numeral base v.natAbs)
  parses : parseNumeral base.val (f.strip out) = some v

/-! ## The directive is read -/

section Read

variable {fmt rest : List UInt8} {pos : ℕ} {ch : UInt8}

theorem fetch_of_drop (h : fmt.drop pos = ch :: rest) : fetch fmt pos = .ok ch := by
  have hget : fmt[pos]? = some ch := by
    rw [← List.head?_drop, h, List.head?_cons]
  rw [fetch, hget]

theorem drop_succ_of_drop (h : fmt.drop pos = ch :: rest) : fmt.drop (pos + 1) = rest := by
  rw [← List.drop_drop, h, List.drop_succ_cons, List.drop_zero]

theorem digitChar_digit {d : ℕ} (h : d < 10) :
    ((digitChar d).toNat : ℤ) = d + 48 ∧ ¬ (digitChar d < chr '0' ∨ chr '9' < digitChar d) := by
  interval_cases d <;> decide

/-- The `int` that the loop over the digits has after one more of them. -/
theorem wrap32_digit (k : ℤ) {d : ℕ} (h : d < 10) :
    wrap32 (wrap32 k * 10 + (digitChar d).toNat - (chr '0').toNat) = wrap32 (k * 10 + d) := by
  have hzero : ((chr '0').toNat : ℤ) = 48 := by decide
  rw [(digitChar_digit h).1, hzero, add_sub_assoc, add_sub_cancel_right]
  simp only [wrap32]
  rw [← Int.bmod_add_bmod, Int.bmod_mul_bmod, Int.bmod_add_bmod]

/-- The digits of a number are read up to another character. -/
theorem readNumber_eq {ds : List ℕ} (hds : ∀ d ∈ ds, d < 10)
    (hdrop : fmt.drop pos = ds.map digitChar ++ ch :: rest)
    (hch : ch < chr '0' ∨ chr '9' < ch) {d : ℕ} (hd : d < 10) (k : ℤ) {fuel : ℕ}
    (hfuel : ds.length < fuel) :
    readNumber fmt fuel pos (wrap32 k) (digitChar d) =
      .ok (wrap32 ((d :: ds).foldl (fun (k : ℤ) (d : ℕ) ↦ k * 10 + d) k), pos + ds.length) := by
  induction ds generalizing pos d k fuel with
  | nil =>
    obtain ⟨fuel, rfl⟩ := Nat.exists_eq_add_of_lt hfuel
    rw [readNumber, fetch_of_drop hdrop, wrap32_digit k hd]
    exact if_pos hch
  | cons d' ds ih =>
    obtain ⟨fuel, rfl⟩ := Nat.exists_eq_add_of_lt hfuel
    have hd' : d' < 10 := hds d' List.mem_cons_self
    rw [readNumber, fetch_of_drop hdrop, wrap32_digit k hd]
    refine (if_neg (digitChar_digit hd').2).trans ?_
    rw [ih (fun x hx ↦ hds x (List.mem_cons_of_mem _ hx)) (drop_succ_of_drop hdrop) hd'
      (k * 10 + d) (by rw [List.length_cons]; omega), List.foldl_cons, List.length_cons,
      Nat.add_right_comm pos]
    rfl

/-- The switch at a digit that is not zero. -/
theorem switch_digit {d : ℕ} (h : fetch fmt pos = .ok (digitChar d)) (hpos : 0 < d) (hd : d < 10)
    (sp : Spec) (args : List Arg) :
    switch fmt pos sp args =
      (readNumber fmt (fmt.length + 1) (pos + 1) 0 (digitChar d) >>= fun r ↦
        pure (.again r.2 (sp.processPrecision r.1) args)) := by
  rw [switch, h]
  interval_cases d <;> rfl

theorem reswitch_again {fuel : ℕ} {sp sp' : Spec} {args args' : List Arg} {p : ℕ}
    (h : switch fmt pos sp args = .ok (.again p sp' args')) :
    reswitch fmt (fuel + 1) pos sp args = reswitch fmt fuel p sp' args' := by
  rw [reswitch, h]
  rfl

/-- The item of a conversion. -/
def Conv.item (c : Conv) (sp : Spec) (a : BitVec 64) : Item :=
  match c with
  | .d => signedItem (getint sp.lflag a) sp
  | c => .number [] (getuint sp.lflag a) c.base sp.width sp.padc

theorem reswitch_conv {c : Conv} (h : fmt.drop pos = c.char :: rest) {fuel : ℕ} (hfuel : 0 < fuel)
    (sp : Spec) (a : BitVec 64) (args : List Arg) :
    reswitch fmt fuel pos sp (.num a :: args) = .ok (c.item sp a, pos + 1, args) := by
  obtain ⟨fuel, rfl⟩ := Nat.exists_eq_add_of_lt hfuel
  have hfetch := fetch_of_drop h
  rw [reswitch, switch, hfetch]
  cases c <;> rfl

/-- The value of `lflag` behind a length modifier. -/
def LengthMod.lflag : LengthMod → ℤ
  | .int => 0
  | .long => 1
  | .longLong => 2

theorem switch_l (h : fmt.drop pos = chr 'l' :: rest) (sp : Spec) (args : List Arg) :
    switch fmt pos sp args =
      .ok (.again (pos + 1) { sp with lflag := wrap32 (sp.lflag + 1) } args) := by
  rw [switch, fetch_of_drop h]
  rfl

theorem reswitch_lengthMod {l : LengthMod} {c : Conv}
    (h : fmt.drop pos = l.chars ++ c.char :: rest) {fuel : ℕ} (hfuel : l.chars.length < fuel)
    (sp : Spec) (hsp : sp.lflag = 0) (a : BitVec 64) (args : List Arg) :
    reswitch fmt fuel pos sp (.num a :: args) =
      .ok (c.item { sp with lflag := l.lflag } a, pos + l.chars.length + 1, args) := by
  obtain ⟨fuel, rfl⟩ := Nat.exists_eq_add_of_lt hfuel
  cases l with
  | int =>
    have hzero : { sp with lflag := 0 } = sp := by rw [← hsp]
    rw [reswitch_conv h (Nat.succ_pos _), LengthMod.lflag, hzero]
    rfl
  | long =>
    change reswitch fmt (0 + 1 + fuel + 1) _ _ _ = _
    rw [reswitch_again (switch_l h sp _), reswitch_conv (drop_succ_of_drop h) (by omega), hsp]
    rfl
  | longLong =>
    have h' := drop_succ_of_drop h
    change reswitch fmt (0 + 1 + 1 + fuel + 1) _ _ _ = _
    rw [reswitch_again (switch_l h sp _), Nat.add_right_comm _ 1 fuel,
      reswitch_again (switch_l h' _ _), reswitch_conv (drop_succ_of_drop h') (by omega), hsp]
    rfl

theorem foldl_decimalDigits (n : ℕ) :
    (decimalDigits n).foldl (fun (k : ℤ) (d : ℕ) ↦ k * 10 + d) 0 = n := by
  have h := Nat.ofDigits_digits 10 n
  rw [Nat.ofDigits_eq_foldr] at h
  rw [decimalDigits, List.foldl_reverse]
  conv_rhs => rw [← h]
  generalize Nat.digits 10 n = ds
  induction ds with
  | nil => rfl
  | cons d ds ih =>
    rw [List.foldr_cons, ih, List.foldr_cons]
    push_cast
    ring

/-- A literal width starts with a digit that is not zero. -/
theorem decimalDigits_eq_cons {n : ℕ} (h : 0 < n) :
    ∃ d ds, decimalDigits n = d :: ds ∧ 0 < d ∧ ∀ x ∈ d :: ds, x < 10 := by
  have hne : Nat.digits 10 n ≠ [] := Nat.digits_ne_nil_iff_ne_zero.mpr h.ne'
  have hlast := Nat.getLast_digit_ne_zero 10 h.ne'
  refine ⟨(Nat.digits 10 n).getLast hne, (Nat.digits 10 n).dropLast.reverse, ?_,
    Nat.pos_of_ne_zero hlast, fun x hx ↦ ?_⟩
  · conv_lhs => rw [decimalDigits, ← List.dropLast_append_getLast hne]
    rw [List.reverse_append, List.reverse_singleton, List.singleton_append]
  · refine Nat.digits_lt_base (by decide) (m := n) ?_
    rw [← List.dropLast_append_getLast hne]
    rw [List.mem_cons, List.mem_reverse] at hx
    rw [List.mem_append, List.mem_singleton]
    exact hx.symm

/-- The first character behind a width is no digit. -/
theorem head_lengthMod (l : LengthMod) (c : Conv) (rest : List UInt8) :
    ∃ ch cs, l.chars ++ c.char :: rest = ch :: cs ∧ chr '9' < ch := by
  cases l with
  | int => exact ⟨c.char, rest, rfl, by cases c <;> decide⟩
  | long => exact ⟨chr 'l', _, rfl, by decide⟩
  | longLong => exact ⟨chr 'l', _, rfl, by decide⟩

theorem reswitch_width {w : Width} {l : LengthMod} {c : Conv}
    (h : fmt.drop pos = w.chars ++ (l.chars ++ c.char :: rest)) {fuel : ℕ}
    (hfuel : l.chars.length + 1 < fuel) (sp : Spec) (hflag : sp.lflag = 0) (hwidth : sp.width = -1)
    (hprec : sp.precision = -1) (a : BitVec 64) :
    reswitch fmt fuel pos sp (w.args ++ [.num a]) =
      .ok (c.item { sp with width := w.value, lflag := l.lflag } a,
        pos + w.chars.length + l.chars.length + 1, []) := by
  obtain ⟨fuel, rfl⟩ := Nat.exists_eq_add_of_lt hfuel
  have hprocess : ∀ x : ℤ, sp.processPrecision x = { sp with width := x } := fun x ↦ by
    rw [Spec.processPrecision, if_pos (by omega), ← hprec]
  cases w with
  | absent =>
    have hsame : { sp with width := -1, lflag := l.lflag } = { sp with lflag := l.lflag } := by
      rw [← hwidth]
    exact (reswitch_lengthMod h (by omega) sp hflag a []).trans (by rw [Width.value, hsame]; rfl)
  | star w =>
    have hswitch : switch fmt pos sp (.num (w.setWidth 64) :: [.num a]) =
        .ok (.again (pos + 1) (sp.processPrecision w.toInt) [.num a]) := by
      rw [switch, fetch_of_drop h]
      change Except.ok (Next.again (pos + 1)
        (sp.processPrecision ((w.setWidth 64).setWidth 32).toInt) [.num a]) = _
      rw [BitVec.setWidth_setWidth_of_le _ (by decide), BitVec.setWidth_eq]
    exact (reswitch_again hswitch).trans
      ((reswitch_lengthMod (drop_succ_of_drop h) (by omega) _ (by rw [hprocess]; exact hflag) a
        []).trans (by rw [hprocess]; rfl))
  | literal n hpos hfits =>
    obtain ⟨d, ds, hdigits, hd, hlt⟩ := decimalDigits_eq_cons hpos
    obtain ⟨ch, cs, hcs, hch⟩ := head_lengthMod l c rest
    rw [Width.chars, hdigits, List.map_cons, List.cons_append] at h
    have htail := drop_succ_of_drop h
    have hlen : ds.length < fmt.length + 1 := by
      have := congrArg List.length h
      simp only [List.length_drop, List.length_cons, List.length_append, List.length_map] at this
      omega
    have hread := readNumber_eq (fun x hx ↦ hlt x (List.mem_cons_of_mem _ hx))
      (htail.trans (by rw [hcs])) (.inr hch) (hlt d List.mem_cons_self) 0 hlen
    have hn : wrap32 n = n := wrap32_of_le (by omega) (by omega)
    rw [← hdigits, foldl_decimalDigits, hn] at hread
    have hswitch := switch_digit (fetch_of_drop h) hd (hlt d List.mem_cons_self) sp [.num a]
    rw [show readNumber fmt _ (pos + 1) 0 _ = _ from hread] at hswitch
    have hrest : fmt.drop (pos + 1 + ds.length) = l.chars ++ c.char :: rest := by
      rw [← List.drop_drop, htail, List.drop_left' (List.length_map _)]
    refine (reswitch_again hswitch).trans
      ((reswitch_lengthMod hrest (by omega) _ (by rw [hprocess]; exact hflag) a []).trans ?_)
    rw [hprocess, Width.chars, hdigits, List.length_map, List.length_cons, Nat.add_assoc pos 1,
      Nat.add_comm 1]
    rfl

theorem reswitch_flag {f : Flag} {w : Width} {l : LengthMod} {c : Conv}
    (h : fmt.drop pos = f.chars ++ (w.chars ++ (l.chars ++ c.char :: rest))) {fuel : ℕ}
    (hfuel : l.chars.length + f.chars.length + 1 < fuel) (a : BitVec 64) :
    reswitch fmt fuel pos {} (w.args ++ [.num a]) =
      .ok (c.item { padc := f.padc, width := w.value, lflag := l.lflag } a,
        pos + f.chars.length + w.chars.length + l.chars.length + 1, []) := by
  have hswitch : ∀ x : UInt8, f.chars = [x] → x = f.padc →
      switch fmt pos {} (w.args ++ [.num a]) =
        .ok (.again (pos + 1) { padc := f.padc } (w.args ++ [.num a])) := by
    intro x hx hpadc
    rw [hx] at h
    rw [switch, fetch_of_drop h, hpadc]
    cases f with
    | none => exact absurd hx nofun
    | zero => rfl
    | left => rfl
  obtain ⟨fuel, rfl⟩ := Nat.exists_eq_add_of_lt hfuel
  cases f with
  | none => exact reswitch_width h (by omega) _ rfl rfl rfl a
  | zero =>
    exact (reswitch_again (hswitch _ rfl rfl)).trans
      (reswitch_width (drop_succ_of_drop h) (by simp [Flag.chars]; omega) _ rfl rfl rfl a)
  | left =>
    exact (reswitch_again (hswitch _ rfl rfl)).trans
      (reswitch_width (drop_succ_of_drop h) (by simp [Flag.chars]; omega) _ rfl rfl rfl a)

end Read

theorem valueOf_bounds (l : LengthMod) (c : Conv) (a : BitVec 64) :
    -2 ^ 63 ≤ valueOf l c a ∧ valueOf l c a < 2 ^ 64 := by
  have h1 := BitVec.le_toInt a
  have h2 := BitVec.toInt_lt (x := a)
  have h3 := BitVec.le_toInt (a.setWidth 32)
  have h4 := BitVec.toInt_lt (x := a.setWidth 32)
  have h5 := a.isLt
  have h6 := (a.setWidth 32).isLt
  cases c <;> cases l <;> (simp only [valueOf]; omega)

/-- The item of a conversion: the sign, and the number without it. -/
theorem conv_item_eq (l : LengthMod) (c : Conv) (a : BitVec 64) (sp : Spec)
    (hsp : sp.lflag = l.lflag) :
    c.item sp a = .number (sign (valueOf l c a)) (valueOf l c a).natAbs c.base sp.width
      sp.padc := by
  have hbounds := valueOf_bounds l c a
  have hsigned : c = .d → getint sp.lflag a = valueOf l c a := by
    rintro rfl
    rw [hsp]
    cases l <;> rfl
  have hunsigned : c ≠ .d → (getuint sp.lflag a : ℤ) = valueOf l c a := by
    intro hc
    rw [hsp]
    cases c with
    | d => exact absurd rfl hc
    | u => cases l <;> rfl
    | o => cases l <;> rfl
    | x => cases l <;> rfl
  by_cases hc : c = .d
  · have hvalue := hsigned hc
    subst hc
    simp only [Conv.item, hvalue, signedItem, sign]
    split_ifs with hneg
    · have habs : (-valueOf l .d a % 2 ^ 64).toNat = (valueOf l .d a).natAbs := by omega
      rw [habs]
      rfl
    · have habs : (valueOf l .d a).toNat = (valueOf l .d a).natAbs := by omega
      rw [habs]
      rfl
  · have hvalue := hunsigned hc
    have hitem : c.item sp a = .number [] (getuint sp.lflag a) c.base sp.width sp.padc := by
      cases c with
      | d => exact absurd rfl hc
      | u => rfl
      | o => rfl
      | x => rfl
    rw [hitem, sign, if_neg (by omega), ← hvalue, Int.natAbs_natCast]

/-- A directive is read into one item. -/
theorem itemsOf_directive (f : Flag) (w : Width) (l : LengthMod) (c : Conv) (a : BitVec 64) :
    itemsOf (directive f w l c) (w.args ++ [.num a]) =
      .ok [.number (sign (valueOf l c a)) (valueOf l c a).natAbs c.base w.value f.padc] := by
  have hdrop : (directive f w l c).drop 1 =
      f.chars ++ (w.chars ++ (l.chars ++ c.char :: [0])) := rfl
  have hlen : (directive f w l c).length =
      f.chars.length + w.chars.length + l.chars.length + 3 := by
    simp only [directive, List.length_cons, List.length_append, List.length_nil]
    omega
  have hread : reswitch (directive f w l c) ((directive f w l c).length + 1) 1 {}
      (w.args ++ [.num a]) = _ := reswitch_flag hdrop (by omega) a
  rw [conv_item_eq l c a _ rfl] at hread
  have hfirst : nextItem (directive f w l c) 0 (w.args ++ [.num a]) = .ok (some
      (.number (sign (valueOf l c a)) (valueOf l c a).natAbs c.base w.value f.padc,
        1 + f.chars.length + w.chars.length + l.chars.length + 1, [])) := by
    have hfetch : fetch (directive f w l c) 0 = .ok (chr '%') := rfl
    rw [nextItem, hfetch, Except.ok_bind, if_pos rfl, Nat.zero_add, hread]
    rfl
  have hend : fetch (directive f w l c)
      (1 + f.chars.length + w.chars.length + l.chars.length + 1) = .ok 0 := by
    have hsplit : directive f w l c =
        (chr '%' :: (f.chars ++ w.chars ++ l.chars ++ [c.char])) ++ [0] := by
      simp [directive]
    have hlast : (directive f w l c).drop
        (1 + f.chars.length + w.chars.length + l.chars.length + 1) = [0] := by
      rw [hsplit, List.drop_left']
      simp only [List.length_cons, List.length_append, List.length_nil]
      omega
    exact fetch_of_drop hlast
  rw [itemsOf, hlen, itemsLoop, hfirst, Except.ok_bind]
  dsimp only
  rw [itemsLoop, nextItem, hend, Except.ok_bind, if_neg (by decide), if_pos rfl]
  rfl

/-- The characters that are printed for a directive. -/
theorem printed_directive (f : Flag) (w : Width) (l : LengthMod) (c : Conv) (a : BitVec 64) :
    printed (directive f w l c) (w.args ++ [.num a]) =
      .ok (sign (valueOf l c a) ++
        numberChars (valueOf l c a).natAbs c.base w.value f.padc) := by
  rw [printed_eq (itemsOf_directive f w l c a) (List.forall_mem_singleton.mpr trivial), output,
    List.flatMap_singleton, Item.chars]

/-! ## Numerals -/

section Numeral

variable {base : Base} {v : ℤ}

theorem idxOf_digitChar {d : ℕ} (h : d < 16) : hexDigits.idxOf (digitChar d) = d := by
  interval_cases d <;> decide

/-- No digit is a blank or a sign. -/
theorem digitChar_ne {d : ℕ} (h : d < 16) : digitChar d ≠ chr ' ' ∧ digitChar d ≠ chr '-' := by
  interval_cases d <;> decide

/-- A numeral is a sequence of digits with the value of the number. -/
theorem numeral_eq_map (base : Base) (num : ℕ) :
    ∃ d ds, numeral base num = digitChar d :: ds.map digitChar ∧
      (∀ x ∈ d :: ds, x < base.val) ∧
      (d :: ds).foldl (fun (k x : ℕ) ↦ k * base.val + x) 0 = num := by
  have hbase := base.two_le
  by_cases hnum : num = 0
  · refine ⟨0, [], by rw [numeral, if_pos hnum, List.map_nil], fun x hx ↦ ?_, ?_⟩
    · rw [List.mem_singleton.mp hx]
      omega
    · rw [hnum, List.foldl_cons, List.foldl_nil, zero_mul]
  · have hvalue : (Nat.digits base.val num).reverse.foldl (fun (k x : ℕ) ↦ k * base.val + x) 0 =
        num := by
      rw [List.foldl_reverse]
      conv_rhs => rw [← Nat.ofDigits_digits base.val num, Nat.ofDigits_eq_foldr]
      congr 1
      funext x k
      rw [Nat.cast_id, mul_comm, add_comm]
    have hlt : ∀ x ∈ (Nat.digits base.val num).reverse, x < base.val := fun x hx ↦
      Nat.digits_lt_base hbase (List.mem_reverse.mp hx)
    rw [numeral, if_neg hnum]
    cases hds : (Nat.digits base.val num).reverse with
    | nil =>
      rw [List.reverse_eq_nil_iff, Nat.digits_eq_nil_iff_eq_zero] at hds
      exact absurd hds hnum
    | cons d ds =>
      rw [hds] at hvalue hlt
      exact ⟨d, ds, rfl, hlt, hvalue⟩

theorem numeral_length_pos (base : Base) (num : ℕ) : 0 < (numeral base num).length := by
  obtain ⟨d, ds, h, -⟩ := numeral_eq_map base num
  rw [h]
  exact Nat.succ_pos _

theorem numeral_length_le {num : ℕ} (h : num < 2 ^ 64) : (numeral base num).length ≤ 64 := by
  rw [numeral]
  split_ifs with hnum
  · rw [List.length_singleton]
    omega
  · rw [List.length_map, List.length_reverse, Nat.digits_length_le_iff base.two_le]
    exact h.trans_le (Nat.pow_le_pow_left base.two_le 64)

theorem parseDigits_map (hbase : base.val ≤ 16) {ds : List ℕ} (h : ∀ x ∈ ds, x < base.val) (k : ℕ) :
    parseDigits base.val (ds.map digitChar) k =
      some (ds.foldl (fun (k x : ℕ) ↦ k * base.val + x) k) := by
  induction ds generalizing k with
  | nil => rfl
  | cons d ds ih =>
    have hd := h d List.mem_cons_self
    rw [List.map_cons, parseDigits, idxOf_digitChar (hd.trans_le hbase), if_pos hd,
      ih fun x hx ↦ h x (List.mem_cons_of_mem _ hx), List.foldl_cons]

/-- A numeral has its number as its value. -/
theorem parseDigits_numeral (hbase : base.val ≤ 16) (num : ℕ) :
    parseDigits base.val (numeral base num) 0 = some num := by
  obtain ⟨d, ds, h, hlt, hvalue⟩ := numeral_eq_map base num
  rw [h, ← List.map_cons, parseDigits_map hbase hlt, hvalue]

/-- Zeros in front do not change the value. -/
theorem parseDigits_zeros (n : ℕ) (cs : List UInt8) :
    parseDigits base.val (List.replicate n (chr '0') ++ cs) 0 = parseDigits base.val cs 0 := by
  have hbase := base.two_le
  induction n with
  | zero => rfl
  | succ n ih =>
    have hidx : hexDigits.idxOf (chr '0') = 0 := by decide
    rw [List.replicate_succ, List.cons_append, parseDigits, hidx, if_pos (by omega), zero_mul,
      add_zero, ih]

theorem parseNumeral_of_ne {cs : List UInt8} (h : ∀ c ∈ cs.head?, c ≠ chr '-') (hne : cs ≠ []) :
    parseNumeral base.val cs = (parseDigits base.val cs 0).map fun k : ℕ ↦ (k : ℤ) := by
  cases cs with
  | nil => exact absurd rfl hne
  | cons c cs => rw [parseNumeral, if_neg (h c rfl)]

/-- A numeral with its sign is read back. -/
theorem parseNumeral_signed (hbase : base.val ≤ 16) (v : ℤ) :
    parseNumeral base.val (signed base v) = some v := by
  rw [signed, sign]
  split_ifs with hneg
  · rw [List.singleton_append, parseNumeral, if_pos rfl, parseDigits_numeral hbase, Option.map_some,
      ← Int.abs_eq_natAbs, abs_of_neg hneg, neg_neg]
  · obtain ⟨d, ds, h, hlt, -⟩ := numeral_eq_map base v.natAbs
    have hd := (digitChar_ne ((hlt d List.mem_cons_self).trans_le hbase)).2
    rw [List.nil_append, parseNumeral_of_ne (by rw [h]; rintro _ ⟨⟩; exact hd) (by rw [h]; simp),
      parseDigits_numeral hbase, Option.map_some, ← Int.abs_eq_natAbs,
      abs_of_nonneg (not_lt.mp hneg)]

/-- A numeral with its sign does not start with a blank. -/
theorem signed_eq_cons (hbase : base.val ≤ 16) (v : ℤ) :
    ∃ c cs, signed base v = c :: cs ∧ c ≠ chr ' ' := by
  rw [signed, sign]
  split_ifs
  · exact ⟨chr '-', _, rfl, by decide⟩
  · obtain ⟨d, ds, h, hlt, -⟩ := numeral_eq_map base v.natAbs
    exact ⟨_, _, h, (digitChar_ne ((hlt d List.mem_cons_self).trans_le hbase)).1⟩

/-- A numeral with its sign does not end in a blank. -/
theorem signed_eq_concat (hbase : base.val ≤ 16) (v : ℤ) :
    ∃ cs c, signed base v = cs ++ [c] ∧ c ≠ chr ' ' := by
  obtain ⟨d, ds, h, hlt, -⟩ := numeral_eq_map base v.natAbs
  have hne : d :: ds ≠ [] := List.cons_ne_nil d ds
  refine ⟨sign v ++ (d :: ds).dropLast.map digitChar, digitChar ((d :: ds).getLast hne), ?_, ?_⟩
  · rw [signed, h, ← List.map_cons, List.append_assoc, ← List.map_singleton, ← List.map_append,
      List.dropLast_append_getLast]
  · exact (digitChar_ne ((hlt _ (List.getLast_mem hne)).trans_le hbase)).1

/-- Without padding every flag gets what it asks for. -/
theorem printed_signed (hbase : base.val ≤ 16) (f : Flag) {w : ℤ}
    (hw : w ≤ (signed base v).length) : Printed f w base v (signed base v) := by
  refine ⟨(max_eq_right hw).symm, ⟨0, ?_⟩, ?_⟩
  · cases f with
    | none => rfl
    | zero => rfl
    | left => exact (List.append_nil _).symm
  · cases f with
    | none =>
      obtain ⟨c, cs, h, hc⟩ := signed_eq_cons hbase v
      rw [Flag.strip, h, List.dropWhile_cons_of_neg (by simpa using hc), ← h,
        parseNumeral_signed hbase]
    | zero => exact parseNumeral_signed hbase v
    | left =>
      obtain ⟨cs, c, h, hc⟩ := signed_eq_concat hbase v
      rw [Flag.strip, h, List.rdropWhile_concat_neg _ _ _ (by simpa using hc), ← h,
        parseNumeral_signed hbase]

/-- Padding in front of a number without a sign, in blanks or zeros. -/
theorem printed_padded (hbase : base.val ≤ 16) {f : Flag} (hf : f ≠ .left) (hv : 0 ≤ v) {n : ℕ}
    {w : ℤ} (hw : w = n + (signed base v).length) :
    Printed f w base v (List.replicate n f.padc ++ numeral base v.natAbs) := by
  have hsign : sign v = [] := if_neg hv.not_gt
  have hsigned : signed base v = numeral base v.natAbs := by rw [signed, hsign, List.nil_append]
  refine ⟨?_, ⟨n, ?_⟩, ?_⟩
  · rw [List.length_append, List.length_replicate, Nat.cast_add, ← hsigned, ← hw,
      max_eq_left (by omega)]
  · rw [hsign]
    cases f with
    | none => rfl
    | zero => rfl
    | left => exact absurd rfl hf
  · cases f with
    | none =>
      obtain ⟨c, cs, h, hc⟩ := signed_eq_cons hbase v
      have hblanks : ∀ x ∈ List.replicate n (chr ' '), (x == chr ' ') = true := fun x hx ↦ by
        rw [List.eq_of_mem_replicate hx, beq_self_eq_true]
      rw [← hsigned, Flag.strip, Flag.padc, List.dropWhile_append_of_pos hblanks, h,
        List.dropWhile_cons_of_neg (by simpa using hc), ← h, parseNumeral_signed hbase]
    | zero =>
      obtain ⟨d, ds, h, hlt, -⟩ := numeral_eq_map base v.natAbs
      have hhead : ∀ c ∈ (List.replicate n (chr '0') ++ numeral base v.natAbs).head?,
          c ≠ chr '-' := by
        cases n with
        | zero =>
          rw [h]
          rintro _ ⟨⟩
          exact (digitChar_ne ((hlt d List.mem_cons_self).trans_le hbase)).2
        | succ n =>
          rintro _ ⟨⟩
          decide
      rw [Flag.strip, Flag.padc, parseNumeral_of_ne hhead (by rw [h]; simp), parseDigits_zeros,
        parseDigits_numeral hbase, Option.map_some, ← Int.abs_eq_natAbs, abs_of_nonneg hv]
    | left => exact absurd rfl hf

/-- The sign is not counted, the flag `-` does not pad on the right, and a width near the least
`int` becomes a large one. -/
theorem printed_numberChars_iff (hbase : base.val ≤ 16) (hv : v.natAbs < 2 ^ 64) (f : Flag) {w : ℤ}
    (hlow : -2 ^ 31 ≤ w) (hhigh : w < 2 ^ 31) :
    Printed f w base v (sign v ++ numberChars v.natAbs base w f.padc) ↔
      -2 ^ 31 + (numeral base v.natAbs).length ≤ w ∧
        (w ≤ (numeral base v.natAbs).length ∨ 0 ≤ v ∧ f ≠ .left) := by
  have hlen := numeral_length_pos base v.natAbs
  have hmax : (numeral base v.natAbs).length ≤ 64 := numeral_length_le hv
  have hsigned : (signed base v).length = (sign v).length + (numeral base v.natAbs).length :=
    List.length_append
  by_cases hover : -2 ^ 31 + ((numeral base v.natAbs).length : ℤ) ≤ w
  swap
  -- `width` turns positive on the way down
  · have hwrap : wrap32 (w - (numeral base v.natAbs).length) =
        w - (numeral base v.natAbs).length + 2 ^ 32 := by
      rw [wrap32, ← Int.add_bmod_right, Int.bmod_eq_of_le] <;> push_cast <;> omega
    refine iff_of_false (fun h ↦ ?_) fun h ↦ hover h.1
    have hcount := h.length
    rw [numberChars, hwrap, hsigned, List.length_append, List.length_append,
      List.length_replicate] at hcount
    omega
  have hwrap : wrap32 (w - (numeral base v.natAbs).length) = w - (numeral base v.natAbs).length :=
    wrap32_of_le (by omega) (by omega)
  rw [numberChars, hwrap]
  by_cases hroom : w ≤ (numeral base v.natAbs).length
  · have hnone : (w - ((numeral base v.natAbs).length : ℤ)).toNat = 0 := by omega
    rw [hnone, List.replicate_zero, List.nil_append]
    exact iff_of_true (printed_signed hbase f (by omega)) ⟨hover, .inl hroom⟩
  obtain ⟨n, hn⟩ : ∃ n : ℕ, w - (numeral base v.natAbs).length = n + 1 :=
    ⟨(w - (numeral base v.natAbs).length - 1).toNat, by omega⟩
  have hpads : (w - ((numeral base v.natAbs).length : ℤ)).toNat = n + 1 := by omega
  rw [hpads]
  by_cases hneg : v < 0
  · refine iff_of_false (fun h ↦ ?_) (by omega)
    have hsign : sign v = [chr '-'] := if_pos hneg
    have hcount := h.length
    rw [hsigned, hsign, List.length_append, List.length_append, List.length_replicate,
      List.length_singleton] at hcount
    omega
  have hsign : sign v = [] := if_neg hneg
  have hnumeral : (signed base v).length = (numeral base v.natAbs).length := by
    rw [hsigned, hsign, List.length_nil, zero_add]
  rw [hsign, List.nil_append]
  by_cases hleft : f = .left
  · refine iff_of_false (fun h ↦ ?_) (by rintro ⟨-, h | ⟨-, h⟩⟩; exacts [hroom h, h hleft])
    subst hleft
    obtain ⟨k, hk⟩ := h.layout
    obtain ⟨d, ds, hd, hlt, -⟩ := numeral_eq_map base v.natAbs
    rw [hsign, hd] at hk
    exact (digitChar_ne ((hlt d List.mem_cons_self).trans_le hbase)).2 (List.cons.inj hk).1.symm
  · refine iff_of_true (printed_padded hbase hleft (not_lt.mp hneg) ?_)
      ⟨hover, .inr ⟨not_lt.mp hneg, hleft⟩⟩
    rw [hnumeral]
    push_cast
    omega

end Numeral

theorem Conv.base_le (c : Conv) : c.base.val ≤ 16 := by
  cases c <;> decide

theorem Width.value_bounds (w : Width) : -2 ^ 31 ≤ w.value ∧ w.value < 2 ^ 31 := by
  cases w with
  | absent => decide
  | literal n pos fits =>
    rw [Width.value]
    omega
  | star w => exact ⟨BitVec.le_toInt w, BitVec.toInt_lt⟩

/-- A number is printed as its directive asks for, exactly when it needs no padding, or is not
negative and padded on the left. -/
theorem number_printed_iff (f : Flag) (w : Width) (l : LengthMod) (c : Conv) (a : BitVec 64) :
    (∃ out, printed (directive f w l c) (w.args ++ [.num a]) = .ok out ∧
      Printed f w.value c.base (valueOf l c a) out) ↔
    -2 ^ 31 + (numeral c.base (valueOf l c a).natAbs).length ≤ w.value ∧
      (w.value ≤ (numeral c.base (valueOf l c a).natAbs).length ∨
        0 ≤ valueOf l c a ∧ f ≠ .left) := by
  have hbounds := valueOf_bounds l c a
  obtain ⟨hlow, hhigh⟩ := w.value_bounds
  rw [← printed_numberChars_iff c.base_le (by omega) f hlow hhigh, printed_directive]
  exact ⟨by rintro ⟨out, ⟨⟩, h⟩; exact h, fun h ↦ ⟨_, rfl, h⟩⟩

/-- `%5d` prints `-3` as `-    3`. -/
theorem number_sign_first :
    printed (directive .none (.literal 5 (by decide) (by decide)) .int .d) [.num (-3)] =
      .ok [45, 32, 32, 32, 32, 51] ∧
    ¬ Printed .none 5 dec (-3) [45, 32, 32, 32, 32, 51] := by
  refine ⟨?_, fun h ↦ absurd h.length (by decide)⟩
  exact (printed_directive .none (.literal 5 (by decide) (by decide)) .int .d (-3)).trans
    (by decide)

end Ucore.Printfmt
