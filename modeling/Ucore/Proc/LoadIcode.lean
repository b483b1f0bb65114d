import Ucore.Mm.PageFault
import Ucore.Proc.ExecArgs
import Ucore.Proc.LoadRead

/-!
# The program image

The part of `load_icode` that reads the ELF file: for each segment `mm_map` makes an area, one loop
allocates pages and reads the bytes of the file into them, and another allocates the rest and clears
it. The last page of the file part is cleared behind the bytes of the file. Addresses are words of
64 bits, and the sums that the source forms wrap around.

`load_icode_read` returns an error that `load_icode` does not look at, and new pages hold what they
held before. What it leaves in a buffer is the parameter `read` of the model, and `Writes` says for
which pieces of the file these are the file's bytes. A loop cuts a segment where the pages of the
program end, so that a piece is at most a page, and one of a whole page begins where the page does
(`InPieces`).

For a file of the simple file system `read` is `readInto`, which has the bytes of the file except
for a piece that is a whole block. Linkers place a segment at the same offset in a page and in a
block; its inner pages are then whole blocks, and a program has what it should have only without
such pages (`ProgHdr.Readable`). Where the headers and the segments lie inside the file, and none of
them needs a whole block, the program that starts has the bytes of the file in each segment and
zeros behind them (`loadIcode_program`).
-/

namespace Ucore.Exec

open Bytes AddrSpace Prog

/-! ## The file format -/

def elfMagic : ℕ := 0x464C457F

/-- `struct elfhdr`, with the fields that `load_icode` reads. -/
structure ElfHdr where
  eMagic : ℕ
  eEntry : ℕ
  ePhoff : ℕ
  ePhnum : ℕ

/-- `sizeof(struct elfhdr)`. -/
def elfHdrSize : ℕ := 64

/-- The header in a buffer. -/
def ElfHdr.parse (b : Bytes) : ElfHdr := ⟨read32 b 0, read64 b 24, read64 b 32, read16 b 56⟩

/-- `struct proghdr`, with the fields that `load_icode` reads. -/
structure ProgHdr where
  pType : ℕ
  pFlags : BitVec 32
  pOffset : ℕ
  pVa : ℕ
  pFilesz : ℕ
  pMemsz : ℕ

/-- `sizeof(struct proghdr)`. -/
def progHdrSize : ℕ := 56

/-- The program header in a buffer. -/
def ProgHdr.parse (b : Bytes) : ProgHdr :=
  ⟨read32 b 0, BitVec.ofNat 32 (read32 b 4), read64 b 8, read64 b 16, read64 b 32, read64 b 40⟩

def elfPtLoad : ℕ := 1

/-- The flags of the area of a segment, from `ELF_PF_X`, `ELF_PF_W` and `ELF_PF_R`. -/
def ProgHdr.vmFlags (ph : ProgHdr) : BitVec 32 :=
  (if ph.pFlags &&& 1 ≠ 0 then vmExec else 0) ||| (if ph.pFlags &&& 2 ≠ 0 then vmWrite else 0) |||
    if ph.pFlags &&& 4 ≠ 0 then vmRead else 0

/-- The bits of the page table entries of a segment. -/
def ProgHdr.perm (ph : ProgHdr) : BitVec 64 :=
  pteU ||| pteV ||| (if ph.vmFlags &&& vmRead ≠ 0 then pteR else 0) |||
    (if ph.vmFlags &&& vmWrite ≠ 0 then pteW ||| pteR else 0) |||
      if ph.vmFlags &&& vmExec ≠ 0 then pteX else 0

/-! ## load_icode -/

/-- A page of the new program. -/
structure UserPage where
  bytes : Bytes
  perm : BitVec 64

/-- The pages of the new program, by their numbers. -/
abbrev Pages := ℕ → Option UserPage

/-- How `load_icode` fails. -/
inductive LoadError
  | invalElf
  | errno (e : Errno)
  deriving DecidableEq, Repr

/-- A buffer in which something is written from an offset on. -/
def writeAt (b : Bytes) (off : ℕ) (f : Bytes → Bytes) : Bytes := fun i ↦
  if i < off then b i else f (fun j ↦ b (off + j)) (i - off)

/-- `memset` with 0. -/
def clear (size : ℕ) (b : Bytes) : Bytes := fun i ↦ if i < size then 0 else b i

/-- `start`, `la` and `total_off`, with the pages allocated so far. -/
structure Cursor where
  start : ℕ
  la : ℕ
  off : ℕ
  pages : Pages

/-- The loops of (3.6.1) and (3.6.2), which differ in what they write to a new page:
`write off size` at the position `off` of the segment. The list has what the next free pages hold;
there is no page behind its end. -/
def allocLoop (write : ℕ → ℕ → Bytes → Bytes) (perm : BitVec 64) (stop : ℕ) :
    List Bytes → Cursor → Option (Cursor × List Bytes)
  | [], c => if c.start < stop then none else some (c, [])
  | content :: fresh, c =>
    if c.start < stop then
      let off := c.start - c.la
      let la := (c.la + pgSize) % wordSize
      let size := pgSize - off - (if stop < la then la - stop else 0)
      allocLoop write perm stop fresh
        { start := (c.start + size) % wordSize
          la := la
          off := (c.off + size) % wordSize
          pages := Function.update c.pages (c.la / pgSize)
            (some ⟨writeAt content off (write c.off size), perm⟩) }
    else some (c, content :: fresh)

/-- The part of (3.6.2) that clears the end of the last page of the file part. -/
def zeroTail (stop : ℕ) (c : Cursor) : VmProg Cursor :=
  if c.start < c.la ∧ c.start ≠ stop then do
    let off := c.start + pgSize - c.la
    let size := pgSize - off - (if stop < c.la then c.la - stop else 0)
    let start := (c.start + size) % wordSize
    assert ((stop < c.la ∧ start = stop) ∨ (c.la ≤ stop ∧ start = c.la))
    -- `page` is the one that the loop has allocated last
    let page := (c.la - pgSize) / pgSize
    return { c with
      start := start
      pages := Function.update c.pages page
        ((c.pages page).map fun p ↦ { p with bytes := writeAt p.bytes off (clear size) }) }
  else return c

section Load

variable (give : ℕ → Bool) (read : ℕ → ℕ → Bytes → Bytes)

/-- The body of the loop over the program headers, for a segment with type `ELF_PT_LOAD`. The bytes
that `load_icode_read` leaves in a buffer are `read offset len`. -/
def loadSegment (ph : ProgHdr) (mm : AddrSpace.Mm) (pages : Pages) (fresh : List Bytes) :
    VmProg (Except LoadError (AddrSpace.Mm × Pages × List Bytes)) := do
  if ph.pMemsz < ph.pFilesz then
    return .error .invalElf
  else
    let (r, mm) ← mmMap give mm ph.pVa ph.pMemsz ph.vmFlags
    match r with
    | .error e => return .error (.errno e)
    | .ok _ =>
      match allocLoop read ph.perm ((ph.pVa + ph.pFilesz) % wordSize) fresh
        ⟨ph.pVa, roundDown ph.pVa, ph.pOffset, pages⟩ with
      | none => return .error (.errno .noMem)
      | some (c, fresh) =>
        let stop := (ph.pVa + ph.pMemsz) % wordSize
        let c ← zeroTail stop c
        -- the second loop has no position in the file
        match allocLoop (fun _ size ↦ clear size) ph.perm stop fresh { c with off := 0 } with
        | none => return .error (.errno .noMem)
        | some (c, fresh) => return .ok (mm, c.pages, fresh)

/-- The loop over the program headers, from the header `i` on, with `n` to go; the header is read
into the buffer `ph`. -/
def loadSegments (elf : ElfHdr) : ℕ → ℕ → Bytes → AddrSpace.Mm → Pages → List Bytes →
    VmProg (Except LoadError (AddrSpace.Mm × Pages × List Bytes))
  | 0, _, _, mm, pages, fresh => return .ok (mm, pages, fresh)
  | n + 1, i, ph, mm, pages, fresh => do
    let ph := read ((elf.ePhoff + progHdrSize * i) % wordSize) progHdrSize ph
    if (ProgHdr.parse ph).pType ≠ elfPtLoad then
      loadSegments elf n (i + 1) ph mm pages fresh
    else
      match ← loadSegment give read (ProgHdr.parse ph) mm pages fresh with
      | .error e => return .error e
      | .ok (mm, pages, fresh) => loadSegments elf n (i + 1) ph mm pages fresh

/-- The four calls of `pgdir_alloc_page` for the stack, with `n` to go. -/
def allocStack : ℕ → Pages → List Bytes → VmProg (Pages × List Bytes)
  | 0, pages, fresh => return (pages, fresh)
  | n + 1, pages, fresh => do
    let (pages, fresh) ← allocStack n pages fresh
    match fresh with
    | [] => halt
    | content :: fresh =>
      return (Function.update pages (ustackTop / pgSize - (n + 1)) (some ⟨content, pteUser⟩), fresh)

/-- `load_icode` from (3) up to the stack: the buffers `elf` and `ph` are those on the stack of the
kernel. -/
def loadImage (elf ph : Bytes) (mm : AddrSpace.Mm) (fresh : List Bytes) :
    VmProg (Except LoadError (ElfHdr × AddrSpace.Mm × Pages × List Bytes)) := do
  let elf := ElfHdr.parse (read 0 elfHdrSize elf)
  if elf.eMagic ≠ elfMagic then
    return .error .invalElf
  else
    match ← loadSegments give read elf elf.ePhnum 0 ph mm (fun _ ↦ none) fresh with
    | .error e => return .error e
    | .ok (mm, pages, fresh) =>
      let (r, mm) ← mmMap give mm (ustackTop - ustackSize) ustackSize
        (vmRead ||| vmWrite ||| vmStack)
      match r with
      | .error e => return .error (.errno e)
      | .ok _ => do
        let (pages, fresh) ← allocStack 4 pages fresh
        return .ok (elf, mm, pages, fresh)

end Load

/-! ## The loops -/

/-- `write` writes these bytes, for the pieces of the segment with `piece off size`. -/
def Writes (write : ℕ → ℕ → Bytes → Bytes) (piece : ℕ → ℕ → Prop) (val : Bytes) : Prop :=
  ∀ off size b i, piece off size → i < size → write off size b i = val (off + i)

theorem writes_clear : Writes (fun _ size ↦ clear size) (fun _ _ ↦ True) Bytes.zero :=
  fun _ _ _ _ _ hi ↦ if_pos hi

/-- The pieces into which a loop from `c` on cuts the segment: each lies in a page, and one that
fills its page begins where the page does. -/
def InPieces (piece : ℕ → ℕ → Prop) (stop : ℕ) (c : Cursor) : Prop :=
  ∀ a size, c.start ≤ a → a + size ≤ stop → size ≤ 4096 → (size = 4096 → 4096 ∣ a) →
    piece (c.off + (a - c.start)) size

/-- The byte at an address, with the bits of its page. -/
def Shows (pages : Pages) (perm : BitVec 64) (a : ℕ) (b : UInt8) : Prop :=
  ∃ p, pages (a / 4096) = some p ∧ p.perm = perm ∧ p.bytes (a % 4096) = b

theorem Shows.of_page {pages : Pages} {perm : BitVec 64} {a n i : ℕ} {b : UInt8} {p : UserPage}
    (h : pages n = some p) (hn : a / 4096 = n) (hp : p.perm = perm) (hi : a % 4096 = i)
    (hb : p.bytes i = b) : Shows pages perm a b := by
  subst hn hi
  exact ⟨p, h, hp, hb⟩

/-- A page that is not touched shows what it has shown. -/
theorem Shows.congr {pages pages' : Pages} {perm : BitVec 64} {a : ℕ} {b : UInt8}
    (h : Shows pages perm a b) (hsame : pages' (a / 4096) = pages (a / 4096)) :
    Shows pages' perm a b := by
  obtain ⟨p, hp, hrest⟩ := h
  exact ⟨p, hsame.trans hp, hrest⟩

theorem writeAt_of_lt {b : Bytes} {off i : ℕ} (f : Bytes → Bytes) (h : i < off) :
    writeAt b off f i = b i := if_pos h

theorem writeAt_of_le {b : Bytes} {off i : ℕ} (f : Bytes → Bytes) (h : off ≤ i) :
    writeAt b off f i = f (fun j ↦ b (off + j)) (i - off) := if_neg (not_lt.mpr h)

/-- What a loop does that starts at `c`. -/
structure Filled (perm : BitVec 64) (val : Bytes) (stop : ℕ) (c d : Cursor) : Prop where
  start : d.start = max c.start stop
  la_le : c.la ≤ d.la
  aligned : 4096 ∣ c.la → 4096 ∣ d.la
  near : c.start < stop → stop ≤ d.la ∧ d.la < stop + 4096
  done : ¬c.start < stop → d = c
  /-- The pages that it maps. -/
  mapped : ∀ {n}, d.pages n ≠ c.pages n → c.la ≤ n * 4096 ∧ n * 4096 < d.la
  shows : ∀ {a}, c.start ≤ a → a < stop → Shows d.pages perm a (val (c.off + (a - c.start)))

section Loop

variable {write : ℕ → ℕ → Bytes → Bytes} {piece : ℕ → ℕ → Prop} {perm : BitVec 64}
  {val : Bytes} {stop : ℕ} {fresh fresh' : List Bytes} {c d : Cursor}

theorem Filled.refl (h : ¬c.start < stop) : Filled perm val stop c c where
  start := (max_eq_left (not_lt.mp h)).symm
  la_le := le_rfl
  aligned := id
  near hlt := absurd hlt h
  done _ := rfl
  mapped hn := absurd rfl hn
  shows ha hlt := absurd (ha.trans_lt hlt) h

/-- One round, and the rest of the loop. -/
theorem Filled.cons {content : Bytes} {size : ℕ} (hw : Writes write piece val)
    (hlt : c.start < stop) (haligned : 4096 ∣ c.la) (hle : c.la ≤ c.start)
    (hsum : c.start + size = min (c.la + 4096) stop) (hpiece : piece c.off size)
    (hfill : Filled perm val stop ⟨c.start + size, c.la + 4096, c.off + size,
      Function.update c.pages (c.la / pgSize)
        (some ⟨writeAt content (c.start - c.la) (write c.off size), perm⟩)⟩ d) :
    Filled perm val stop c d := by
  have hpage : c.la / pgSize * 4096 = c.la := Nat.div_mul_cancel haligned
  have hmono : c.la + 4096 ≤ d.la := hfill.la_le
  refine ⟨?_, by omega, fun h ↦ hfill.aligned (Nat.dvd_add h (dvd_refl 4096)), fun _ ↦ ?_,
    fun h ↦ absurd hlt h, fun {n} hn ↦ ?_, fun {a} ha hastop ↦ ?_⟩
  · have hmax : d.start = max (c.start + size) stop := hfill.start
    omega
  · by_cases h : c.start + size < stop
    · exact hfill.near h
    · rw [hfill.done h]
      change stop ≤ c.la + 4096 ∧ c.la + 4096 < stop + 4096
      omega
  · by_cases h : d.pages n = Function.update c.pages (c.la / pgSize)
      (some ⟨writeAt content (c.start - c.la) (write c.off size), perm⟩) n
    · by_cases hnp : n = c.la / pgSize
      · rw [hnp, hpage]
        omega
      · rw [Function.update_of_ne hnp] at h
        exact absurd h hn
    · obtain ⟨h₁, h₂⟩ := hfill.mapped h
      change c.la + 4096 ≤ n * 4096 at h₁
      omega
  · by_cases h : a < c.start + size
    · -- the byte is in the page that was allocated now
      have hsame : d.pages (c.la / pgSize) = some ⟨writeAt content (c.start - c.la)
          (write c.off size), perm⟩ := by
        by_contra hne
        rw [← Function.update_self (c.la / pgSize) (some _) c.pages] at hne
        obtain ⟨h₁, -⟩ := hfill.mapped hne
        change c.la + 4096 ≤ c.la / pgSize * 4096 at h₁
        omega
      have hdiv : a / 4096 = c.la / pgSize := by
        rw [pgSize] at hpage ⊢
        omega
      have hmod : a % 4096 = a - c.la := by omega
      refine Shows.of_page hsame hdiv rfl hmod ((writeAt_of_le _ (by omega)).trans
        ((hw c.off size _ _ hpiece (by omega)).trans (congrArg val ?_)))
      omega
    · have hshow := hfill.shows (a := a) (not_lt.mp h) hastop
      have heq : c.off + size + (a - (c.start + size)) = c.off + (a - c.start) := by omega
      change Shows d.pages perm a (val (c.off + size + (a - (c.start + size)))) at hshow
      rwa [heq] at hshow

/-- A loop fills everything up to `stop`. -/
theorem allocLoop_filled (hw : Writes write piece val) (hstop : stop + 4096 ≤ wordSize)
    (hrun : allocLoop write perm stop fresh c = some (d, fresh')) (haligned : 4096 ∣ c.la)
    (hla : c.start < stop → c.la ≤ c.start ∧ c.start < c.la + 4096)
    (hoff : c.start < stop → c.off + (stop - c.start) < wordSize)
    (hpiece : InPieces piece stop c) : Filled perm val stop c d := by
  induction fresh generalizing c with
  | nil =>
    rw [allocLoop] at hrun
    split_ifs at hrun with hlt
    obtain ⟨rfl, -⟩ := Prod.mk.inj (Option.some.inj hrun)
    exact .refl hlt
  | cons content fresh ih =>
    rw [allocLoop] at hrun
    by_cases hlt : c.start < stop
    swap
    · rw [if_neg hlt] at hrun
      obtain ⟨rfl, -⟩ := Prod.mk.inj (Option.some.inj hrun)
      exact .refl hlt
    rw [if_pos hlt] at hrun
    dsimp only at hrun
    obtain ⟨hle, hnear⟩ := hla hlt
    have hroom := hoff hlt
    have hnext : (c.la + pgSize) % wordSize = c.la + 4096 :=
      Nat.mod_eq_of_lt (show c.la + 4096 < wordSize by omega)
    rw [hnext] at hrun
    generalize hsize : pgSize - (c.start - c.la) -
      (if stop < c.la + 4096 then c.la + 4096 - stop else 0) = size at hrun
    have hsum : c.start + size = min (c.la + 4096) stop := by
      rw [← hsize, pgSize]
      split_ifs <;> omega
    have hstart : (c.start + size) % wordSize = c.start + size := Nat.mod_eq_of_lt (by omega)
    have hpos : (c.off + size) % wordSize = c.off + size := Nat.mod_eq_of_lt (by omega)
    rw [hstart, hpos] at hrun
    have hfirst := hpiece c.start size le_rfl (by omega) (by omega) fun _ ↦ by omega
    rw [Nat.sub_self, Nat.add_zero] at hfirst
    refine Filled.cons hw hlt haligned hle hsum hfirst
      (ih hrun ?_ (fun h ↦ ?_) (fun h ↦ ?_) fun a sz ha hsz hle' hfull ↦ ?_)
    · exact Nat.dvd_add haligned (dvd_refl 4096)
    · change c.start + size < stop at h
      change c.la + 4096 ≤ c.start + size ∧ c.start + size < c.la + 4096 + 4096
      omega
    · change c.off + size + (stop - (c.start + size)) < wordSize
      omega
    · change c.start + size ≤ a at ha
      have heq : c.off + size + (a - (c.start + size)) = c.off + (a - c.start) := by omega
      change piece (c.off + size + (a - (c.start + size))) sz
      rw [heq]
      exact hpiece a sz (by omega) hsz hle' hfull

/-- What is cleared of the last page of the file part. -/
structure Cleared (perm : BitVec 64) (stop : ℕ) (c d : Cursor) : Prop where
  la : d.la = c.la
  le : c.start ≤ d.start
  /-- Either everything is cleared or the page is full. -/
  next : d.start < stop → c.la ≤ d.start ∧ (d.start = c.start ∨ d.start = c.la)
  mapped : ∀ {n}, d.pages n ≠ c.pages n → c.start < c.la ∧ n * 4096 + 4096 = c.la
  kept : ∀ {a b}, a < c.start → Shows c.pages perm a b → Shows d.pages perm a b
  shows : ∀ {a}, c.start ≤ a → a < d.start → a < c.la ∧ Shows d.pages perm a 0

theorem zeroTail_cleared {t t' : Vm} (hstop : stop + 4096 ≤ wordSize) (hle : c.start ≤ stop)
    (haligned : 4096 ∣ c.la) (hla : c.start < c.la → c.la < c.start + 4096)
    (hpage : c.start < c.la → ∃ b, Shows c.pages perm (c.start - 1) b) (hpos : 0 < c.start)
    (hrun : (zeroTail stop c).run t = .ok d t') : Cleared perm stop c d := by
  rw [zeroTail] at hrun
  -- the rest of the last page is cleared only if the file part does not end at its boundary
  by_cases hcond : c.start < c.la ∧ c.start ≠ stop
  swap
  · rw [if_neg hcond] at hrun
    obtain ⟨rfl, -⟩ := Outcome.ok.inj hrun
    refine ⟨rfl, le_rfl, fun h ↦ ⟨?_, .inl rfl⟩, fun hn ↦ absurd rfl hn, fun _ h ↦ h, fun h h' ↦ ?_⟩
    · by_contra hlt
      exact hcond ⟨not_le.mp hlt, h.ne⟩
    · exact absurd (h.trans_lt h') (lt_irrefl _)
  rw [if_pos hcond] at hrun
  obtain ⟨hlt, hne⟩ := hcond
  have hnear := hla hlt
  obtain ⟨b, p, hp, hperm, -⟩ := hpage hlt
  dsimp only at hrun
  generalize hoff : c.start + pgSize - c.la = off at hrun
  generalize hsize : pgSize - off - (if stop < c.la then c.la - stop else 0) = size at hrun
  rw [pgSize] at hoff
  -- the clearing ends with the page or with the segment
  have hsum : c.start + size = min c.la stop := by
    rw [← hsize, pgSize]
    split_ifs <;> omega
  have hstart : (c.start + size) % wordSize = c.start + size := Nat.mod_eq_of_lt (by omega)
  generalize hn : (c.la - pgSize) / pgSize = n at hrun
  have hpage' : n * 4096 + 4096 = c.la := by
    rw [← hn, pgSize]
    omega
  have hdiv : (c.start - 1) / 4096 = n := by omega
  rw [hdiv] at hp
  rw [hstart, hp] at hrun
  rw [assert_bind_run (by omega)] at hrun
  obtain ⟨rfl, -⟩ := Outcome.ok.inj hrun
  set q : UserPage := { p with bytes := writeAt p.bytes off (clear size) } with hq
  have hself : ∀ {a}, a / 4096 = n → Function.update c.pages n (some q) (a / 4096) = some q := by
    rintro a rfl
    exact Function.update_self ..
  have hother : ∀ {m}, m ≠ n → Function.update c.pages n (some q) m = c.pages m :=
    fun hm ↦ Function.update_of_ne hm ..
  refine ⟨rfl, ?_, fun h ↦ ?_, fun {m} hm ↦ ⟨hlt, ?_⟩, fun {a b'} ha hshow ↦ ?_,
    fun {a} ha ha' ↦ ?_⟩
  · change c.start ≤ c.start + size
    omega
  · change c.start + size < stop at h
    change c.la ≤ c.start + size ∧ (c.start + size = c.start ∨ c.start + size = c.la)
    omega
  · by_cases hmn : m = n
    · rw [hmn]
      exact hpage'
    · exact absurd (hother hmn) hm
  · by_cases han : a / 4096 = n
    · obtain ⟨p', hp', hperm', hb'⟩ := hshow
      rw [han, hp] at hp'
      obtain rfl := Option.some.inj hp'
      exact ⟨q, hself han, hperm', (writeAt_of_lt _ (by omega)).trans hb'⟩
    · exact hshow.congr (hother han)
  · change a < c.start + size at ha'
    have han : a / 4096 = n := by omega
    have hmod : a % 4096 = a + 4096 - c.la := by omega
    refine ⟨by omega, q, hself han, hperm, ?_⟩
    rw [hmod, hq]
    exact (writeAt_of_le _ (by omega)).trans (if_pos (by omega))

end Loop

/-! ## The pieces of a file -/

/-- A piece that can be read from a file of `limit` bytes: it is inside, and has no whole block. -/
def Readable (limit off size : ℕ) : Prop := off + size ≤ limit ∧ NoWholeBlock off (off + size)

/-- Where only a piece of a whole page can have a whole block. -/
theorem Readable.of_page {limit off size : ℕ} (hin : off + size ≤ limit) (hsize : size ≤ 4096)
    (hpage : size = 4096 → ¬4096 ∣ off) : Readable limit off size := by
  refine ⟨hin, ?_⟩
  rw [NoWholeBlock]
  by_cases hfull : size = 4096
  · have hoff := hpage hfull
    omega
  · omega

/-- The file part of a segment is inside a file of `limit` bytes, and none of its pages is a whole
block of the file: either no page of the program lies in it, or its pages are not those of the
file. -/
structure ProgHdr.Readable (ph : ProgHdr) (limit : ℕ) : Prop where
  inside : ph.pOffset + ph.pFilesz ≤ limit
  pages : ph.pOffset % 4096 = ph.pVa % 4096 → NoWholeBlock ph.pVa (ph.pVa + ph.pFilesz)

theorem ProgHdr.Readable.inPieces {ph : ProgHdr} {limit la : ℕ} {pages : Pages}
    (h : ph.Readable limit) :
    InPieces (Exec.Readable limit) (ph.pVa + ph.pFilesz) ⟨ph.pVa, la, ph.pOffset, pages⟩ := by
  intro a size ha hstop hsize hpage
  change ph.pVa ≤ a at ha
  have hin := h.inside
  refine .of_page (show ph.pOffset + (a - ph.pVa) + size ≤ limit by omega) hsize ?_
  intro hfull hdvd
  change 4096 ∣ ph.pOffset + (a - ph.pVa) at hdvd
  have haligned := hpage hfull
  have hno := h.pages (by omega)
  rw [NoWholeBlock] at hno
  omega

/-! ## A segment -/

/-- What `mm_map` has done when it returns 0. -/
structure Mapped (mm : AddrSpace.Mm) (start stop : ℕ) (vmFlags : BitVec 32) (v : Vma)
    (mm' : AddrSpace.Mm) : Prop where
  start : v.vmStart = start
  stop : v.vmEnd = stop
  flags : v.vmFlags = vmFlags
  wf : mm'.Wf
  mem : ∀ w, w ∈ mm'.mmapList ↔ w = v ∨ w ∈ mm.mmapList
  apart : ∀ w ∈ mm.mmapList, w.vmEnd ≤ v.vmStart ∨ v.vmEnd ≤ w.vmStart

section Segment

variable {give : ℕ → Bool} {mm mm' : AddrSpace.Mm} {t t' : Vm} {v : Vma} {addr len start stop : ℕ}
  {vmFlags : BitVec 32}

theorem mmMapNew_mapped (h : mm.Wf)
    (hrun : (mmMapNew give mm start stop vmFlags).run t = .ok (.ok v, mm') t') :
    Mapped mm start stop vmFlags v mm' := by
  rw [mmMapNew] at hrun
  obtain ⟨r, t₁, hcreate, hrest⟩ := exists_of_bind_ok hrun
  cases hgive : give t.asked with
  | false =>
    obtain ⟨t₂, hnone⟩ := @vmaCreate_of_not_give give t start stop vmFlags hgive
    obtain ⟨rfl, -⟩ := Outcome.ok.inj (hnone.symm.trans hcreate)
    cases hrest
  | true =>
    obtain ⟨t₂, hsome⟩ := @vmaCreate_of_give give t start stop vmFlags hgive
    obtain ⟨rfl, -⟩ := Outcome.ok.inj (hsome.symm.trans hcreate)
    obtain ⟨m, t₃, hins, hpure⟩ := exists_of_bind_ok hrest
    obtain ⟨hr, -⟩ := Outcome.ok.inj hpure
    obtain ⟨hv, rfl⟩ := Prod.mk.inj hr
    obtain rfl := Except.ok.inj hv
    obtain ⟨hwf, hmem⟩ := insertVma_wf h hins
    have hfits := fits_of_insertVma h hins
    refine ⟨rfl, rfl, rfl, hwf, hmem, fun w hw ↦ ?_⟩
    exact hfits.apart h.separate hw

theorem mmMap_mapped (h : mm.Wf) (hwrap : addr + len < wordSize)
    (hrun : (mmMap give mm addr len vmFlags).run t = .ok (.ok v, mm') t') :
    UserAccess (roundDown addr) (mapEnd addr len) ∧
      Mapped mm (roundDown addr) (mapEnd addr len) vmFlags v mm' := by
  rw [mmMap] at hrun
  by_cases hacc : UserAccess (roundDown addr) (roundUp ((addr + len) % wordSize))
  swap
  · rw [if_neg hacc] at hrun
    cases hrun
  rw [if_pos hacc, mapEnd_eq hwrap hacc] at hrun
  rw [mapEnd_eq hwrap hacc] at hacc
  refine ⟨hacc, ?_⟩
  rcases findVma_cases h (roundDown addr) with ⟨w, hw, hholds, hfind⟩ | ⟨-, hfind⟩
  · rw [hfind] at hrun
    dsimp only at hrun
    rw [if_pos (hholds.1.trans_lt hacc.2.1)] at hrun
    cases hrun
  · rw [hfind] at hrun
    exact mmMapNew_mapped h hrun

/-- The areas and the pages of the program that is made, and what a new area adds to them. -/
structure Extends (v : Vma) (mm mm' : AddrSpace.Mm) (pages pages' : Pages) : Prop where
  mem : ∀ w, w ∈ mm'.mmapList ↔ w = v ∨ w ∈ mm.mmapList
  apart : ∀ w ∈ mm.mmapList, w.vmEnd ≤ v.vmStart ∨ v.vmEnd ≤ w.vmStart
  aligned : 4096 ∣ v.vmEnd
  changed : ∀ {n}, pages' n ≠ pages n → v.Holds (n * 4096)

/-- The area of a segment. -/
structure ProgHdr.IsArea (ph : ProgHdr) (v : Vma) : Prop where
  start : v.vmStart = roundDown ph.pVa
  stop : v.vmEnd = mapEnd ph.pVa ph.pMemsz
  flags : v.vmFlags = ph.vmFlags

/-- What the new program has of a segment: an area, and in it the bytes of the file with zeros
behind them. -/
structure HasSegment (file : Bytes) (ph : ProgHdr) (mm : AddrSpace.Mm) (pages : Pages) : Prop where
  area : ∃ v ∈ mm.mmapList, ph.IsArea v
  user : UserAccess (roundDown ph.pVa) (mapEnd ph.pVa ph.pMemsz)
  shows : ∀ j < ph.pMemsz, Shows pages ph.perm (ph.pVa + j)
    (if j < ph.pFilesz then file (ph.pOffset + j) else 0)

variable {file : Bytes} {ph : ProgHdr} {pages pages' : Pages}

/-- A new area leaves the segments that are there. -/
theorem HasSegment.extends (h : HasSegment file ph mm pages)
    (hext : Extends v mm mm' pages pages') : HasSegment file ph mm' pages' := by
  obtain ⟨w, hw, harea⟩ := h.area
  have hstart := harea.start
  have hend := harea.stop
  refine ⟨⟨w, (hext.mem w).mpr (.inr hw), harea⟩, h.user, fun j hj ↦ ?_⟩
  refine (h.shows j hj).congr ?_
  by_contra hne
  have hholds := hext.changed hne
  have haligned := hext.aligned
  rw [roundDown_eq] at hstart
  rw [mapEnd] at hend
  obtain ⟨h₁, h₂⟩ := hholds
  rcases hext.apart w hw with hle | hle
  · omega
  · omega

/-- A page lies in an area. -/
def Inside (mm : AddrSpace.Mm) (pages : Pages) : Prop :=
  ∀ n, pages n ≠ none → ∃ v ∈ mm.mmapList, v.Holds (n * 4096)

theorem Inside.extends (h : Inside mm pages) (hext : Extends v mm mm' pages pages') :
    Inside mm' pages' := by
  intro n hn
  by_cases hsame : pages' n = pages n
  · obtain ⟨w, hw, hholds⟩ := h n (hsame ▸ hn)
    exact ⟨w, (hext.mem w).mpr (.inr hw), hholds⟩
  · exact ⟨v, (hext.mem v).mpr (.inl rfl), hext.changed hsame⟩

section Loops

variable {c₁ c₂ d : Cursor}

/-- A page that the second loop maps lies behind the pages of the file part. -/
theorem same_page {stop : ℕ} (hclear : Cleared ph.perm stop c₁ c₂)
    (hzero : Filled ph.perm Bytes.zero stop { c₂ with off := 0 } d) {a : ℕ} (ha : a < c₁.la) :
    d.pages (a / 4096) = c₂.pages (a / 4096) := by
  by_contra hne
  have hle : c₂.la ≤ a / 4096 * 4096 := (hzero.mapped hne).1
  rw [hclear.la] at hle
  omega

/-- What the loops and the clearing between them do to the pages. -/
theorem segment_filled
    (hfile : Filled ph.perm file (ph.pVa + ph.pFilesz)
      ⟨ph.pVa, roundDown ph.pVa, ph.pOffset, pages⟩ c₁)
    (hclear : Cleared ph.perm (ph.pVa + ph.pMemsz) c₁ c₂)
    (hzero : Filled ph.perm Bytes.zero (ph.pVa + ph.pMemsz) { c₂ with off := 0 } d)
    (hle : ph.pFilesz ≤ ph.pMemsz) :
    (∀ {n}, d.pages n ≠ pages n →
      roundDown ph.pVa ≤ n * 4096 ∧ n * 4096 < ph.pVa + ph.pMemsz) ∧
    ∀ j < ph.pMemsz, Shows d.pages ph.perm (ph.pVa + j)
      (if j < ph.pFilesz then file (ph.pOffset + j) else 0) := by
  have hstart : c₁.start = max ph.pVa (ph.pVa + ph.pFilesz) := hfile.start
  have hnear : ph.pVa < ph.pVa + ph.pFilesz →
      ph.pVa + ph.pFilesz ≤ c₁.la ∧ c₁.la < ph.pVa + ph.pFilesz + 4096 := hfile.near
  have hbelow : roundDown ph.pVa ≤ c₁.la := hfile.la_le
  have haligned : 4096 ∣ c₁.la := hfile.aligned
    (show 4096 ∣ roundDown ph.pVa by rw [roundDown_eq]; exact Nat.dvd_mul_left ..)
  have hdown := roundDown_eq ph.pVa
  constructor
  · intro n hn
    -- the page was filled by the second loop, in the clearing, or by the first loop
    by_cases h₂ : d.pages n = c₂.pages n
    · by_cases h₁ : c₂.pages n = c₁.pages n
      · have hmapped : roundDown ph.pVa ≤ n * 4096 ∧ n * 4096 < c₁.la :=
          hfile.mapped (by rwa [h₂, h₁] at hn)
        by_cases hpos : ph.pVa < ph.pVa + ph.pFilesz
        · have := hnear hpos
          omega
        · rw [h₂, h₁, hfile.done hpos] at hn
          exact absurd rfl hn
      · obtain ⟨hlt, hla⟩ := hclear.mapped h₁
        by_cases hpos : ph.pVa < ph.pVa + ph.pFilesz
        · have := hnear hpos
          omega
        · rw [hfile.done hpos] at hlt
          change ph.pVa < roundDown ph.pVa at hlt
          omega
    · have hmapped : c₂.la ≤ n * 4096 ∧ n * 4096 < d.la := hzero.mapped h₂
      rw [hclear.la] at hmapped
      have hdvd : 4096 ∣ d.la := hzero.aligned (show 4096 ∣ c₂.la from hclear.la ▸ haligned)
      by_cases hpos : c₂.start < ph.pVa + ph.pMemsz
      · have := hzero.near hpos
        omega
      · rw [hzero.done hpos] at h₂
        exact absurd rfl h₂
  · intro j hj
    by_cases hfsz : j < ph.pFilesz
    · -- the file part
      rw [if_pos hfsz]
      have hla := (hnear (by omega)).1
      have hshow := hfile.shows (show ph.pVa ≤ ph.pVa + j by omega)
        (show ph.pVa + j < ph.pVa + ph.pFilesz by omega)
      have heq : ph.pOffset + (ph.pVa + j - ph.pVa) = ph.pOffset + j := by omega
      change Shows c₁.pages ph.perm (ph.pVa + j)
        (file (ph.pOffset + (ph.pVa + j - ph.pVa))) at hshow
      rw [heq] at hshow
      exact (hclear.kept (by omega) hshow).congr (same_page hclear hzero (by omega))
    · rw [if_neg hfsz]
      by_cases hc : ph.pVa + j < c₂.start
      · -- the end of its last page
        obtain ⟨hla, hshow⟩ := hclear.shows (show c₁.start ≤ ph.pVa + j by omega) hc
        exact hshow.congr (same_page hclear hzero hla)
      -- the pages of zeros behind it
      · exact hzero.shows (not_lt.mp hc) (show ph.pVa + j < ph.pVa + ph.pMemsz by omega)

/-- The loops of a segment and the clearing between them, when they return. -/
theorem segment_loops {read : ℕ → ℕ → Bytes → Bytes} {limit : ℕ} {fresh fresh₁ fresh₂ : List Bytes}
    {t t' : Vm} (hread : Writes read (Readable limit) file) (hlimit : limit < wordSize)
    (huser : UserAccess (roundDown ph.pVa) (mapEnd ph.pVa ph.pMemsz))
    (hsize : ph.pFilesz ≤ ph.pMemsz) (hph : ph.Readable limit)
    (hloop : allocLoop read ph.perm (ph.pVa + ph.pFilesz) fresh
      ⟨ph.pVa, roundDown ph.pVa, ph.pOffset, pages⟩ = some (c₁, fresh₁))
    (htail : (zeroTail (ph.pVa + ph.pMemsz) c₁).run t = .ok c₂ t')
    (hloop' : allocLoop (fun _ size ↦ clear size) ph.perm (ph.pVa + ph.pMemsz) fresh₁
      { c₂ with off := 0 } = some (d, fresh₂)) :
    (∀ {n}, d.pages n ≠ pages n →
      roundDown ph.pVa ≤ n * 4096 ∧ n * 4096 < ph.pVa + ph.pMemsz) ∧
    ∀ j < ph.pMemsz, Shows d.pages ph.perm (ph.pVa + j)
      (if j < ph.pFilesz then file (ph.pOffset + j) else 0) := by
  have hbase := huser.1
  have htop := huser.2.2
  have hdown := roundDown_eq ph.pVa
  have hword : (0x100000000 : ℕ) < wordSize := by decide
  rw [userBase, hdown] at hbase
  rw [userTop, mapEnd] at htop
  have hpage : 4096 ∣ roundDown ph.pVa := by
    rw [hdown]
    exact Nat.dvd_mul_left ..
  have hoff := hph.inside
  have hfile := allocLoop_filled hread (by omega) hloop hpage
    (fun _ ↦ show roundDown ph.pVa ≤ ph.pVa ∧ ph.pVa < roundDown ph.pVa + 4096 by omega)
    (fun _ ↦ show ph.pOffset + (ph.pVa + ph.pFilesz - ph.pVa) < wordSize by omega)
    hph.inPieces
  have hstart : c₁.start = max ph.pVa (ph.pVa + ph.pFilesz) := hfile.start
  have hdvd : 4096 ∣ c₁.la := hfile.aligned hpage
  have hnear : (ph.pVa < ph.pVa + ph.pFilesz ∧ ph.pVa + ph.pFilesz ≤ c₁.la ∧
      c₁.la < ph.pVa + ph.pFilesz + 4096) ∨ ph.pFilesz = 0 ∧ c₁.la = roundDown ph.pVa := by
    by_cases hpos : ph.pVa < ph.pVa + ph.pFilesz
    · exact .inl ⟨hpos, hfile.near hpos⟩
    · exact .inr ⟨by omega, by rw [hfile.done hpos]⟩
  have hclear := zeroTail_cleared (by omega) (by omega) hdvd (by omega)
    (fun hlt ↦ ⟨_, hfile.shows (show ph.pVa ≤ c₁.start - 1 by omega) (by omega)⟩) (by omega) htail
  have hzero := allocLoop_filled writes_clear (by omega) hloop'
    (show 4096 ∣ c₂.la from hclear.la ▸ hdvd)
    (fun hlt ↦ by
      have hnext := hclear.next hlt
      change c₂.la ≤ c₂.start ∧ c₂.start < c₂.la + 4096
      rw [hclear.la]
      omega)
    (fun _ ↦ show 0 + (ph.pVa + ph.pMemsz - c₂.start) < wordSize by omega)
    fun _ _ _ _ _ _ ↦ trivial
  exact segment_filled hfile hclear hzero hsize

end Loops

variable {read : ℕ → ℕ → Bytes → Bytes} {limit : ℕ} {fresh fresh' : List Bytes}

/-- A segment that is loaded is there, in an area of its own. -/
theorem loadSegment_spec (hread : Writes read (Readable limit) file) (hlimit : limit < wordSize)
    (h : mm.Wf) (hva : ph.pVa + ph.pMemsz < wordSize) (hph : ph.Readable limit)
    (hrun : (loadSegment give read ph mm pages fresh).run t = .ok (.ok (mm', pages', fresh')) t') :
    ∃ v, ph.IsArea v ∧ Extends v mm mm' pages pages' ∧ mm'.Wf ∧
      HasSegment file ph mm' pages' := by
  rw [loadSegment] at hrun
  by_cases hsize : ph.pMemsz < ph.pFilesz
  · rw [if_pos hsize] at hrun
    cases hrun
  rw [if_neg hsize] at hrun
  obtain ⟨⟨r, mm₁⟩, t₁, hmap, hrest⟩ := exists_of_bind_ok hrun
  cases r with
  | error e => cases hrest
  | ok v =>
    obtain ⟨huser, hmapped⟩ := mmMap_mapped h hva hmap
    have hstop : (ph.pVa + ph.pFilesz) % wordSize = ph.pVa + ph.pFilesz :=
      Nat.mod_eq_of_lt (by omega)
    have hstop' : (ph.pVa + ph.pMemsz) % wordSize = ph.pVa + ph.pMemsz := Nat.mod_eq_of_lt hva
    dsimp only at hrest
    rw [hstop, hstop'] at hrest
    cases hloop : allocLoop read ph.perm (ph.pVa + ph.pFilesz) fresh
        ⟨ph.pVa, roundDown ph.pVa, ph.pOffset, pages⟩ with
    | none =>
      rw [hloop] at hrest
      cases hrest
    | some r =>
      obtain ⟨c₁, fresh₁⟩ := r
      rw [hloop] at hrest
      obtain ⟨c₂, t₂, htail, hrest⟩ := exists_of_bind_ok hrest
      cases hloop' : allocLoop (fun _ size ↦ clear size) ph.perm (ph.pVa + ph.pMemsz) fresh₁
          { c₂ with off := 0 } with
      | none =>
        rw [hloop'] at hrest
        cases hrest
      | some r' =>
        obtain ⟨d, fresh₂⟩ := r'
        rw [hloop'] at hrest
        obtain ⟨hr, -⟩ := Outcome.ok.inj hrest
        obtain ⟨rfl, hq⟩ := Prod.mk.inj (Except.ok.inj hr)
        obtain ⟨rfl, rfl⟩ := Prod.mk.inj hq
        obtain ⟨hchanged, hshows⟩ := segment_loops hread hlimit huser (not_lt.mp hsize) hph hloop
          htail hloop'
        have harea : ph.IsArea v := ⟨hmapped.start, hmapped.stop, hmapped.flags⟩
        refine ⟨v, harea, ⟨hmapped.mem, hmapped.apart, ?_, fun {n} hn ↦ ?_⟩, hmapped.wf,
          ⟨v, (hmapped.mem v).mpr (.inl rfl), harea⟩, huser, hshows⟩
        · rw [hmapped.stop, mapEnd]
          exact Nat.dvd_mul_left ..
        · obtain ⟨h₁, h₂⟩ := hchanged hn
          rw [Vma.Holds, hmapped.start, hmapped.stop, mapEnd]
          omega

end Segment

/-! ## The whole image -/

theorem ElfHdr.parse_congr {b c : Bytes} (h : ∀ i < elfHdrSize, b i = c i) :
    ElfHdr.parse b = ElfHdr.parse c := by
  have h₃₂ : ∀ {o}, o + 4 ≤ 64 → read32 b o = read32 c o :=
    fun ho ↦ read32_congr fun i _ hi ↦ h i (hi.trans_le ho)
  have h₁₆ : read16 b 56 = read16 c 56 :=
    read16_congr fun i _ hi ↦ h i (hi.trans_le (by decide))
  simp only [ElfHdr.parse, read64, h₁₆, h₃₂ (show 0 + 4 ≤ 64 by decide),
    h₃₂ (show 24 + 4 ≤ 64 by decide), h₃₂ (show 24 + 4 + 4 ≤ 64 by decide),
    h₃₂ (show 32 + 4 ≤ 64 by decide), h₃₂ (show 32 + 4 + 4 ≤ 64 by decide)]

theorem ProgHdr.parse_congr {b c : Bytes} (h : ∀ i < progHdrSize, b i = c i) :
    ProgHdr.parse b = ProgHdr.parse c := by
  have h₃₂ : ∀ {o}, o + 4 ≤ 56 → read32 b o = read32 c o :=
    fun ho ↦ read32_congr fun i _ hi ↦ h i (hi.trans_le ho)
  simp only [ProgHdr.parse, read64, h₃₂ (show 0 + 4 ≤ 56 by decide),
    h₃₂ (show 4 + 4 ≤ 56 by decide), h₃₂ (show 8 + 4 ≤ 56 by decide),
    h₃₂ (show 8 + 4 + 4 ≤ 56 by decide), h₃₂ (show 16 + 4 ≤ 56 by decide),
    h₃₂ (show 16 + 4 + 4 ≤ 56 by decide), h₃₂ (show 32 + 4 ≤ 56 by decide),
    h₃₂ (show 32 + 4 + 4 ≤ 56 by decide), h₃₂ (show 40 + 4 ≤ 56 by decide),
    h₃₂ (show 40 + 4 + 4 ≤ 56 by decide)]

/-- Program header `i` of a file. -/
def hdrAt (file : Bytes) (elf : ElfHdr) (i : ℕ) : ProgHdr :=
  ProgHdr.parse fun j ↦ file (elf.ePhoff + progHdrSize * i + j)

/-- A file of `limit` bytes with its headers and segments inside, with segments that do not wrap
around the address space, and without a segment of which `sfs_io_nolock` is asked for a whole
block. -/
structure WholeFile (file : Bytes) (elf : ElfHdr) (limit : ℕ) : Prop where
  limit_lt : limit < wordSize
  hdr : elfHdrSize ≤ limit
  hdrs : ∀ i < elf.ePhnum, elf.ePhoff + progHdrSize * i + progHdrSize ≤ limit
  segments : ∀ i < elf.ePhnum, (hdrAt file elf i).pType = elfPtLoad →
    (hdrAt file elf i).pVa + (hdrAt file elf i).pMemsz < wordSize ∧
      (hdrAt file elf i).Readable limit

/-- The new program after the first `i` headers. -/
structure Loaded (file : Bytes) (elf : ElfHdr) (i : ℕ) (mm : AddrSpace.Mm) (pages : Pages) :
    Prop where
  wf : mm.Wf
  has : ∀ k < i, (hdrAt file elf k).pType = elfPtLoad → HasSegment file (hdrAt file elf k) mm pages
  /-- There is no other page and no other area. -/
  inside : Inside mm pages
  areas : ∀ v ∈ mm.mmapList, ∃ k < i, (hdrAt file elf k).pType = elfPtLoad ∧
    (hdrAt file elf k).IsArea v

section Whole

variable {give : ℕ → Bool} {read : ℕ → ℕ → Bytes → Bytes} {file : Bytes} {elf : ElfHdr}
  {limit i n : ℕ} {mm mm' : AddrSpace.Mm} {pages pages' : Pages} {fresh fresh' : List Bytes}
  {t t' : Vm}

theorem Loaded.skip (h : Loaded file elf i mm pages) (hi : (hdrAt file elf i).pType ≠ elfPtLoad) :
    Loaded file elf (i + 1) mm pages := by
  refine ⟨h.wf, fun k hk hload ↦ ?_, h.inside, fun v hv ↦ ?_⟩
  · rcases Nat.lt_succ_iff_lt_or_eq.mp hk with hk | rfl
    · exact h.has k hk hload
    · exact absurd hload hi
  · obtain ⟨k, hk, hrest⟩ := h.areas v hv
    exact ⟨k, hk.trans (Nat.lt_succ_self i), hrest⟩

theorem Loaded.load {v : Vma} (h : Loaded file elf i mm pages)
    (hi : (hdrAt file elf i).pType = elfPtLoad) (harea : (hdrAt file elf i).IsArea v)
    (hext : Extends v mm mm' pages pages') (hwf : mm'.Wf)
    (hhas : HasSegment file (hdrAt file elf i) mm' pages') :
    Loaded file elf (i + 1) mm' pages' := by
  refine ⟨hwf, fun k hk hload ↦ ?_, h.inside.extends hext, fun w hw ↦ ?_⟩
  · rcases Nat.lt_succ_iff_lt_or_eq.mp hk with hk | rfl
    · exact (h.has k hk hload).extends hext
    · exact hhas
  · rcases (hext.mem w).mp hw with rfl | hw
    · exact ⟨i, Nat.lt_succ_self i, hi, harea⟩
    · obtain ⟨k, hk, hrest⟩ := h.areas w hw
      exact ⟨k, hk.trans (Nat.lt_succ_self i), hrest⟩

/-- The loop over the program headers loads one segment after the other. -/
theorem loadSegments_image (hread : Writes read (Readable limit) file)
    (hfile : WholeFile file elf limit) {buf : Bytes} (hn : i + n = elf.ePhnum)
    (h : Loaded file elf i mm pages)
    (hrun : (loadSegments give read elf n i buf mm pages fresh).run t =
      .ok (.ok (mm', pages', fresh')) t') : Loaded file elf elf.ePhnum mm' pages' := by
  induction n generalizing i buf mm pages fresh t with
  | zero =>
    obtain ⟨hr, -⟩ := Outcome.ok.inj hrun
    obtain ⟨rfl, hq⟩ := Prod.mk.inj (Except.ok.inj hr)
    obtain ⟨rfl, -⟩ := Prod.mk.inj hq
    rw [Nat.add_zero] at hn
    exact hn ▸ h
  | succ n ih =>
    have hi : i < elf.ePhnum := by omega
    have hinside := hfile.hdrs i hi
    have hpos : (elf.ePhoff + progHdrSize * i) % wordSize = elf.ePhoff + progHdrSize * i :=
      Nat.mod_eq_of_lt (((Nat.le_add_right _ _).trans hinside).trans_lt hfile.limit_lt)
    rw [loadSegments, hpos] at hrun
    have hparse : ProgHdr.parse (read (elf.ePhoff + progHdrSize * i) progHdrSize buf) =
        hdrAt file elf i := ProgHdr.parse_congr fun j hj ↦
      hread _ _ _ _ (.of_page hinside (by decide) fun h ↦ absurd h (by decide)) hj
    rw [hparse] at hrun
    have hsucc : i + 1 + n = elf.ePhnum := by omega
    by_cases hload : (hdrAt file elf i).pType = elfPtLoad
    · rw [if_neg (not_not.mpr hload)] at hrun
      obtain ⟨r, t₁, hseg, hrest⟩ := exists_of_bind_ok hrun
      cases r with
      | error e => cases hrest
      | ok r =>
        obtain ⟨mm₁, pages₁, fresh₁⟩ := r
        obtain ⟨hva, hoff⟩ := hfile.segments i hi hload
        obtain ⟨v, harea, hext, hwf, hhas⟩ :=
          loadSegment_spec hread hfile.limit_lt h.wf hva hoff hseg
        exact ih hsucc (h.load hload harea hext hwf hhas) hrest
    · rw [if_pos hload] at hrun
      exact ih hsucc (h.skip hload) hrun

/-- What the calls of `pgdir_alloc_page` for the stack do. -/
theorem allocStack_spec (hrun : (allocStack n pages fresh).run t = .ok (pages', fresh') t') :
    (∀ m, pages' m ≠ pages m → ∃ k < n, m = ustackTop / pgSize - (k + 1)) ∧
    ∀ k < n, ∃ p, pages' (ustackTop / pgSize - (k + 1)) = some p ∧ p.perm = pteUser := by
  induction n generalizing pages' fresh' t' with
  | zero =>
    obtain ⟨hr, -⟩ := Outcome.ok.inj hrun
    obtain ⟨rfl, -⟩ := Prod.mk.inj hr
    exact ⟨fun _ hne ↦ absurd rfl hne, fun _ hk ↦ absurd hk (Nat.not_lt_zero _)⟩
  | succ n ih =>
    rw [allocStack] at hrun
    obtain ⟨⟨pages₁, fresh₁⟩, t₁, hn, hrest⟩ := exists_of_bind_ok hrun
    obtain ⟨hchanged, hstack⟩ := ih hn
    cases fresh₁ with
    | nil => cases hrest
    | cons content fresh₁ =>
      obtain ⟨hr, -⟩ := Outcome.ok.inj hrest
      obtain ⟨rfl, -⟩ := Prod.mk.inj hr
      constructor
      · intro m hm
        by_cases hmn : m = ustackTop / pgSize - (n + 1)
        · exact ⟨n, Nat.lt_succ_self n, hmn⟩
        · rw [Function.update_of_ne hmn] at hm
          obtain ⟨k, hk, hrest⟩ := hchanged m hm
          exact ⟨k, hk.trans (Nat.lt_succ_self n), hrest⟩
      · intro k hk
        by_cases hsame : ustackTop / pgSize - (k + 1) = ustackTop / pgSize - (n + 1)
        · rw [hsame, Function.update_self]
          exact ⟨_, rfl, rfl⟩
        · rw [Function.update_of_ne hsame]
          rcases Nat.lt_succ_iff_lt_or_eq.mp hk with hk | rfl
          · exact hstack k hk
          · exact absurd rfl hsame

/-- The new program with its stack. -/
structure LoadedAll (file : Bytes) (elf : ElfHdr) (mm : AddrSpace.Mm) (pages : Pages) : Prop where
  wf : mm.Wf
  has : ∀ i < elf.ePhnum, (hdrAt file elf i).pType = elfPtLoad →
    HasSegment file (hdrAt file elf i) mm pages
  /-- The segments lie below the stack. -/
  below : ∀ i < elf.ePhnum, (hdrAt file elf i).pType = elfPtLoad →
    mapEnd (hdrAt file elf i).pVa (hdrAt file elf i).pMemsz ≤ ustackTop - ustackSize
  stack : ∃ v ∈ mm.mmapList, v.vmStart = ustackTop - ustackSize ∧ v.vmEnd = ustackTop ∧
    v.vmFlags = vmRead ||| vmWrite ||| vmStack
  stackPages : ∀ k < 4, ∃ p, pages (ustackTop / pgSize - (k + 1)) = some p ∧ p.perm = pteUser
  inside : Inside mm pages
  areas : ∀ v ∈ mm.mmapList, v.vmEnd = ustackTop ∨
    ∃ i < elf.ePhnum, (hdrAt file elf i).pType = elfPtLoad ∧ (hdrAt file elf i).IsArea v

theorem Loaded.stack {v : Vma} {vmFlags : BitVec 32} (h : Loaded file elf elf.ePhnum mm pages)
    (hmapped : Mapped mm (ustackTop - ustackSize) ustackTop vmFlags v mm')
    (hflags : vmFlags = vmRead ||| vmWrite ||| vmStack)
    (hrun : (allocStack 4 pages fresh).run t = .ok (pages', fresh') t') :
    LoadedAll file elf mm' pages' := by
  obtain ⟨hchanged, hstack⟩ := allocStack_spec hrun
  have hext : Extends v mm mm' pages pages' := by
    refine ⟨hmapped.mem, hmapped.apart, ?_, fun {n} hn ↦ ?_⟩
    · rw [hmapped.stop]
      decide
    · obtain ⟨k, hk, rfl⟩ := hchanged n hn
      rw [Vma.Holds, hmapped.start, hmapped.stop, ustackTop, ustackSize, userTop, pgSize]
      omega
  refine ⟨hmapped.wf, fun i hi hload ↦ (h.has i hi hload).extends hext, fun i hi hload ↦ ?_,
    ⟨v, (hmapped.mem v).mpr (.inl rfl), hmapped.start, hmapped.stop, hmapped.flags.trans hflags⟩,
    hstack, h.inside.extends hext, fun w hw ↦ ?_⟩
  · obtain ⟨w, hw, harea⟩ := (h.has i hi hload).area
    obtain ⟨-, hlt, htop⟩ := (h.has i hi hload).user
    have hapart := hmapped.apart w hw
    rw [hmapped.start, hmapped.stop, harea.start, harea.stop] at hapart
    rcases hapart with hle | hle
    · exact hle
    · exact absurd (hlt.trans_le htop) hle.not_gt
  rcases (hmapped.mem w).mp hw with rfl | hw
  · exact .inl hmapped.stop
  · exact .inr (h.areas w hw)

/-- The image of a file: when `load_icode` comes to the arguments with a file whose headers and
segments are in it, each segment has an area with its flags and pages with its bits, which hold the
bytes of the file and zeros behind them; the stack has an area and four pages; and there is no other
area, and no page outside of them. -/
theorem loadImage_exact {ptr pgdir : ℕ} {elfBuf phBuf : Bytes}
    (hread : Writes read (Readable limit) file) (hfile : WholeFile file (ElfHdr.parse file) limit)
    (hrun : (loadImage give read elfBuf phBuf (mmCreate ptr pgdir) fresh).run t =
      .ok (.ok (elf, mm', pages', fresh')) t') :
    elf = ElfHdr.parse file ∧ elf.eMagic = elfMagic ∧ LoadedAll file elf mm' pages' := by
  have hparse : ElfHdr.parse (read 0 elfHdrSize elfBuf) = ElfHdr.parse file :=
    ElfHdr.parse_congr fun i hi ↦
      (hread 0 elfHdrSize _ i (.of_page ((Nat.zero_add _).le.trans hfile.hdr) (by decide)
        fun h ↦ absurd h (by decide)) hi).trans (by rw [Nat.zero_add])
  rw [loadImage, hparse] at hrun
  by_cases hmagic : (ElfHdr.parse file).eMagic = elfMagic
  swap
  · rw [if_pos hmagic] at hrun
    cases hrun
  rw [if_neg (not_not.mpr hmagic)] at hrun
  obtain ⟨r, t₁, hsegs, hrest⟩ := exists_of_bind_ok hrun
  cases r with
  | error e => cases hrest
  | ok r =>
    obtain ⟨mm₁, pages₁, fresh₁⟩ := r
    have hempty : Loaded file (ElfHdr.parse file) 0 (mmCreate ptr pgdir) fun _ ↦ none :=
      ⟨.create ptr pgdir, fun k hk ↦ absurd hk (Nat.not_lt_zero k), fun n hn ↦ absurd rfl hn,
        fun v hv ↦ absurd hv List.not_mem_nil⟩
    have hloaded := loadSegments_image hread hfile (Nat.zero_add _) hempty hsegs
    obtain ⟨⟨r, mm₂⟩, t₂, hmap, hrest⟩ := exists_of_bind_ok hrest
    cases r with
    | error e => cases hrest
    | ok v =>
      obtain ⟨-, hmapped⟩ := mmMap_mapped hloaded.wf (by decide) hmap
      obtain ⟨⟨pages₂, fresh₂⟩, t₃, hstack, hrest⟩ := exists_of_bind_ok hrest
      obtain ⟨hr, -⟩ := Outcome.ok.inj hrest
      obtain ⟨rfl, hmm⟩ := Prod.mk.inj (Except.ok.inj hr)
      obtain ⟨rfl, hpages⟩ := Prod.mk.inj hmm
      obtain ⟨rfl, -⟩ := Prod.mk.inj hpages
      have hdown : roundDown (ustackTop - ustackSize) = ustackTop - ustackSize := by decide
      have hend : mapEnd (ustackTop - ustackSize) ustackSize = ustackTop := by decide
      rw [hdown, hend] at hmapped
      exact ⟨rfl, hmagic, hloaded.stack hmapped rfl hstack⟩

/-! ## The program and its arguments -/

/-- The memory of the new program. -/
def Pages.memory (pages : Pages) : Bytes := fun a ↦
  (pages (a / pgSize)).elim 0 fun p ↦ p.bytes (a % pgSize)

/-- What `load_icode` goes on with. -/
def imageOf (elf : ElfHdr) (mm : AddrSpace.Mm) (pages : Pages) : Image :=
  ⟨mm, pages.memory, BitVec.ofNat 64 elf.eEntry⟩

theorem Shows.memory {perm : BitVec 64} {a : ℕ} {b : UInt8} (h : Shows pages perm a b) :
    pages.memory a = b := by
  obtain ⟨p, hp, -, hb⟩ := h
  rw [Pages.memory, pgSize, hp]
  exact hb

/-- `load_icode_read` on the file with these bytes. -/
theorem writes_readInto {s : Sys} {k : ℕ} {sin : SfsInode} {data : List UInt8}
    {buffer : ℕ → ℕ → Bytes} (h : s.sfs.FileRep k sin data) (hread : s.readable = true) :
    Writes (readInto k buffer s) (Readable data.length) (ofList data) := by
  rintro off size b i ⟨hin, hno⟩ hi
  exact readInto_of_inside h hread hin hno hi

/-- **The program that starts.** The descriptor of `load_icode` is one of a file of the simple file
system. Each segment of the file is in an area of its own, and there is nothing else but the stack.
The arguments are on the stack and do not overwrite the program: in the memory in which its first
instruction runs, every segment holds the bytes of the file and zeros behind them. -/
theorem loadIcode_program {s : Sys} {k ptr pgdir : ℕ} {sin : SfsInode} {data : List UInt8}
    {buffer : ℕ → ℕ → Bytes} {elfBuf phBuf : Bytes} {kargv : List Bytes}
    (h : s.sfs.FileRep k sin data) (hread : s.readable = true)
    (hfile : WholeFile (ofList data) (ElfHdr.parse (ofList data)) data.length)
    (hrun : (loadImage give (readInto k buffer s) elfBuf phBuf (mmCreate ptr pgdir) fresh).run t =
      .ok (.ok (elf, mm', pages', fresh')) t') (hnum : kargv.length ≤ execMaxArgNum)
    (hterm : ∀ k ∈ kargv, k.EndsAt 0 (argLen k) ∧ argLen k ≤ execMaxArgLen) (tf : TrapFrame) :
    elf = ElfHdr.parse (ofList data) ∧ elf.eMagic = elfMagic ∧
      LoadedAll (ofList data) elf mm' pages' ∧
      ∃ p sp uargv arg,
        loadIcode (.ok (imageOf elf mm' pages')) tf kargv = some (.ok p) ∧
        p.mm = some mm' ∧ p.tf.epc = BitVec.ofNat 64 elf.eEntry ∧
        ArgsLaid kargv pages'.memory p.user sp uargv arg ∧
        ∀ i < elf.ePhnum, (hdrAt (ofList data) elf i).pType = elfPtLoad →
          ∀ j < (hdrAt (ofList data) elf i).pMemsz,
            p.user ((hdrAt (ofList data) elf i).pVa + j) =
              if j < (hdrAt (ofList data) elf i).pFilesz then
                ofList data ((hdrAt (ofList data) elf i).pOffset + j)
              else 0 := by
  obtain ⟨rfl, hmagic, hall⟩ := loadImage_exact (writes_readInto h hread) hfile hrun
  obtain ⟨mem', sp, uargv, arg, hargs, hlaid⟩ := setupArgs_laid hnum hterm pages'.memory
  refine ⟨rfl, hmagic, hall, Proc.loaded (imageOf _ mm' pages') mem' sp tf.status, sp, uargv, arg,
    ?_, rfl, rfl, hlaid, fun i hi hload j hj ↦ ?_⟩
  · rw [loadIcode]
    exact congrArg _ hargs
  · refine (hlaid.frame _ (.inl ?_)).trans ((hall.has i hi hload).shows j hj).memory
    have hbelow := hall.below i hi hload
    have hbottom := hlaid.bottom
    rw [mapEnd] at hbelow
    omega

/-- A file with one segment, which goes over the end of a page. -/
def sampleElf : Bytes := fun i ↦
  [0x7F, 0x45, 0x4C, 0x46, 2, 1, 1, 0, 0, 0, 0, 0, 0, 0, 0, 0,
    2, 0, 0xF3, 0, 1, 0, 0, 0, 0xFE, 0x0F, 0x80, 0, 0, 0, 0, 0,
    64, 0, 0, 0, 0, 0, 0, 0, 0, 0, 0, 0, 0, 0, 0, 0,
    0, 0, 0, 0, 64, 0, 56, 0, 1, 0, 0, 0, 0, 0, 0, 0,
    1, 0, 0, 0, 7, 0, 0, 0, 120, 0, 0, 0, 0, 0, 0, 0,
    0xFE, 0x0F, 0x80, 0, 0, 0, 0, 0, 0xFE, 0x0F, 0x80, 0, 0, 0, 0, 0,
    4, 0, 0, 0, 0, 0, 0, 0, 16, 0, 0, 0, 0, 0, 0, 0,
    0, 16, 0, 0, 0, 0, 0, 0, 0x13, 0, 0, 0x73].getD i 0

/-- The routine returns a result and no error. -/
def succeeds {ε σ α β : Type} (m : Prog ε σ (Except α β)) (s : σ) : Bool :=
  match m.run s with
  | .ok (.ok _) _ => true
  | _ => false

theorem exists_of_succeeds {ε σ α β : Type} {m : Prog ε σ (Except α β)} {s : σ}
    (h : succeeds m s = true) : ∃ r t, m.run s = .ok (.ok r) t := by
  rw [succeeds] at h
  cases hrun : m.run s with
  | ok r t =>
    cases r with
    | ok r => exact ⟨r, t, rfl⟩
    | error e =>
      rw [hrun] at h
      cases h
  | error e t =>
    rw [hrun] at h
    cases h
  | panic =>
    rw [hrun] at h
    cases h

/-- The argument `a`. -/
def sampleArg : Bytes := fun i ↦ if i = 0 then 97 else 0

/-- The small file system with this file in the first block of its inode 3, and a descriptor of it
with the position at the end. -/
def elfSys : Sys := ⟨sampleFs.setBlk 4 sampleElf, true, false, 8192, Bytes.zero⟩

/-- The bytes of the file. -/
def elfData : List UInt8 := elfSys.sfs.contents sampleFile

theorem elfSys_fileRep : elfSys.sfs.FileRep 3 ⟨sampleFile, false, 1, 1, 1⟩ elfData where
  ok := sampleFs_ok.setBlk _ _
  tail := sampleFs_tailClear
  cached := rfl
  mapped := sampleFs_mapped_file.setBlk (by decide) _
  type := by decide
  blocks := rfl
  contents := rfl

theorem ofList_elfData {i : ℕ} (hi : i < 4096) : ofList elfData i = sampleElf i := by
  have hblock : i / 4096 = 0 := Nat.div_eq_of_lt hi
  rw [ofList, List.getD_eq_getElem?_getD, elfData, SfsFs.getElem?_contents,
    if_pos (hi.trans (by decide) : i < sampleFile.size), Option.getD_some, SfsFs.fileByte, hblock,
    Nat.mod_eq_of_lt hi]
  rfl

theorem parse_elfData : ElfHdr.parse (ofList elfData) = ElfHdr.parse sampleElf :=
  ElfHdr.parse_congr fun _ hi ↦ ofList_elfData (hi.trans (by decide))

theorem hdrAt_elfData : hdrAt (ofList elfData) (ElfHdr.parse sampleElf) 0 =
    hdrAt sampleElf (ElfHdr.parse sampleElf) 0 :=
  ProgHdr.parse_congr fun j hj ↦ ofList_elfData (by
    have hpos : (ElfHdr.parse sampleElf).ePhoff + progHdrSize * 0 = 64 := by decide
    rw [progHdrSize] at hj
    omega)

/-- The last byte of the file is in the second page, and zeros are behind it. -/
theorem loadIcode_program_sample : ∃ elf mm pages fresh t p,
    (loadImage (fun _ ↦ true) (readInto 3 (fun _ _ ↦ Bytes.zero) elfSys) Bytes.zero Bytes.zero
      (mmCreate 0 0) (List.replicate 6 fun _ ↦ 0xAA)).run bareVm =
        .ok (.ok (elf, mm, pages, fresh)) t ∧
    loadIcode (.ok (imageOf elf mm pages)) TrapFrame.clear [sampleArg] = some (.ok p) ∧
    p.user 0x801001 = 0x73 ∧ p.user 0x801002 = 0 := by
  have hlength : elfData.length = 8192 := SfsFs.length_contents _ _
  have hfile : WholeFile (ofList elfData) (ElfHdr.parse (ofList elfData)) elfData.length := by
    rw [parse_elfData, hlength]
    refine ⟨by decide, by decide, fun i hi ↦ ?_, fun i hi _ ↦ ?_⟩
    · obtain rfl : i = 0 := Nat.lt_one_iff.mp hi
      decide
    · obtain rfl : i = 0 := Nat.lt_one_iff.mp hi
      rw [hdrAt_elfData]
      exact ⟨by decide, by decide, fun h ↦ absurd h (by decide)⟩
  have hlen : argLen sampleArg = 1 := by decide +kernel
  have hterm : ∀ k ∈ [sampleArg], k.EndsAt 0 (argLen k) ∧ argLen k ≤ execMaxArgLen := by
    intro k hk
    rw [List.mem_singleton.mp hk, hlen]
    exact ⟨⟨rfl, by decide⟩, by decide⟩
  obtain ⟨⟨elf, mm, pages, fresh⟩, t, hrun⟩ := exists_of_succeeds
    (m := loadImage (fun _ ↦ true) (readInto 3 (fun _ _ ↦ Bytes.zero) elfSys) Bytes.zero Bytes.zero
      (mmCreate 0 0) (List.replicate 6 fun _ ↦ 0xAA)) (s := bareVm) (by decide +kernel)
  obtain ⟨rfl, -, -, p, sp, uargv, arg, hload, -, -, -, hprogram⟩ :=
    loadIcode_program elfSys_fileRep rfl hfile hrun (by decide) hterm TrapFrame.clear
  rw [parse_elfData] at hprogram
  have hbytes := hprogram 0 (by decide)
  rw [hdrAt_elfData] at hbytes
  have hva : (hdrAt sampleElf (ElfHdr.parse sampleElf) 0).pVa = 0x800FFE := by decide
  refine ⟨_, mm, pages, fresh, t, p, hrun, hload, ?_, ?_⟩
  · have hbyte := hbytes (by decide) 3 (by decide)
    rw [hva, if_pos (by decide), ofList_elfData (by decide)] at hbyte
    exact hbyte
  · have hbyte := hbytes (by decide) 4 (by decide)
    rw [hva] at hbyte
    exact hbyte.trans (if_neg (by decide))

end Whole

end Ucore.Exec
