import Ucore.Errno
import Ucore.Lib.Prog

/-!
# Page tables

The page tables of `kern/mm/pmm.c` in physical memory. A frame is its physical page number, and its
contents are 512 words.

The page allocator is a parameter. What the tables do to it is to take single pages and to give
them back, so memory keeps the calls that were made of it, and the parameter says what the next
request is answered: any function of the calls before it. A `PageSource` is an allocator that
answers with pages that are free. The allocator of `default_pmm.c` is another one, which does so as
long as its list is in order.
-/

namespace Ucore

open Prog

/-! ## Addresses and entries -/

def pgSize : ℕ := 4096

/-- `PTSIZE`, the bytes mapped by a page table. -/
def ptSize : ℕ := 2097152

/-- `PDSIZE`, the bytes mapped by a page directory. -/
def pdSize : ℕ := 1073741824

def userBase : ℕ := 0x200000

def userTop : ℕ := 0x80000000

/-- `npage`: no frame has this number or a larger one. -/
def npage : ℕ := 0x88000

/-- `USER_ACCESS(start, end)`. -/
def UserAccess (start stop : ℕ) : Prop := userBase ≤ start ∧ start < stop ∧ stop ≤ userTop

instance (start stop : ℕ) : Decidable (UserAccess start stop) :=
  inferInstanceAs (Decidable (_ ∧ _ ∧ _))

/-- `PDX1(la)`. -/
def pdx1 (la : ℕ) : ℕ := la / pdSize % 512

/-- `PDX0(la)`. -/
def pdx0 (la : ℕ) : ℕ := la / ptSize % 512

/-- `PTX(la)`. -/
def ptx (la : ℕ) : ℕ := la / pgSize % 512

def pteV : BitVec 64 := 0x001

def pteR : BitVec 64 := 0x002

def pteW : BitVec 64 := 0x004

def pteX : BitVec 64 := 0x008

def pteU : BitVec 64 := 0x010

def pteUser : BitVec 64 := 0x01F

/-- `pte & PTE_V`. -/
def isValid (pte : BitVec 64) : Bool := pte &&& pteV != 0

/-- `PPN(PTE_ADDR(pte))`. -/
def pteFrame (pte : BitVec 64) : ℕ := ((pte &&& ~~~0x3FF#64) <<< 2 >>> 12).toNat

def pteCreate (ppn : ℕ) (type : BitVec 64) : BitVec 64 :=
  BitVec.ofNat 64 ppn <<< 10 ||| pteV ||| type

/-- The frame that a valid entry points to. -/
def target (pte : BitVec 64) : Option ℕ := if isValid pte then some (pteFrame pte) else none

/-! ## Physical memory -/

/-- A call of the page allocator, for one page. -/
inductive PageReq
  | alloc
  | free (f : ℕ)
  deriving DecidableEq, Repr

/-- The contents of the frames, `page->ref`, the pages the allocator has, and the calls it got, the
last one first. -/
structure Mem where
  word : ℕ → ℕ → BitVec 64
  ref : ℕ → ℤ
  free : Finset ℕ
  calls : List PageReq

/-- What `alloc_page` answers after some calls, when some pages are free. -/
abbrev Pick : Type := List PageReq → Finset ℕ → Option ℕ

/-- An allocator that answers with a page that is free, if any. -/
structure PageSource where
  pick : Pick
  pick_mem : ∀ {t s f}, pick t s = some f → f ∈ s

instance : Coe PageSource Pick := ⟨PageSource.pick⟩

namespace Mem

variable (s : Mem)

/-- Write the word `k` of the frame `f`. -/
def setWord (f k : ℕ) (w : BitVec 64) : Mem :=
  { s with word := Function.update s.word f (Function.update (s.word f) k w) }

/-- Write a whole frame. -/
def setPage (f : ℕ) (page : ℕ → BitVec 64) : Mem :=
  { s with word := Function.update s.word f page }

/-- `set_page_ref`. -/
def setRef (f : ℕ) (n : ℤ) : Mem := { s with ref := Function.update s.ref f n }

/-- The allocator was asked in vain. -/
def ask : Mem := { s with calls := .alloc :: s.calls }

/-- The allocator hands out a page. -/
def take (f : ℕ) : Mem := { s with calls := .alloc :: s.calls, free := s.free.erase f }

/-- The allocator gets a page back; it resets the reference count. -/
def release (f : ℕ) : Mem :=
  { s with
    ref := Function.update s.ref f 0
    free := insert f s.free
    calls := .free f :: s.calls }

/-- A page becomes an empty table, entered in the word `i` of the frame `f`. -/
def install (f i page : ℕ) : Mem :=
  (((s.take page).setRef page 1).setPage page fun _ ↦ 0).setWord f i
    (pteCreate page (pteU ||| pteV))

theorem setWord_self (f k : ℕ) (w : BitVec 64) : (s.setWord f k w).word f k = w := by
  simp only [setWord, Function.update_self]

theorem setWord_of_ne {f k f' k' : ℕ} (h : f' ≠ f ∨ k' ≠ k) (w : BitVec 64) :
    (s.setWord f k w).word f' k' = s.word f' k' := by
  simp only [setWord]
  rcases eq_or_ne f' f with rfl | hf
  · rw [Function.update_self, Function.update_of_ne (h.resolve_left fun hne ↦ hne rfl)]
  · rw [Function.update_of_ne hf]

@[simp] theorem setWord_ref (f k : ℕ) (w : BitVec 64) : (s.setWord f k w).ref = s.ref := rfl

@[simp] theorem setWord_free (f k : ℕ) (w : BitVec 64) : (s.setWord f k w).free = s.free := rfl

@[simp] theorem setRef_word (f : ℕ) (n : ℤ) : (s.setRef f n).word = s.word := rfl

@[simp] theorem setRef_free (f : ℕ) (n : ℤ) : (s.setRef f n).free = s.free := rfl

@[simp] theorem setRef_ref (f : ℕ) (n : ℤ) : (s.setRef f n).ref = Function.update s.ref f n := rfl

@[simp] theorem take_word (f : ℕ) : (s.take f).word = s.word := rfl

@[simp] theorem take_ref (f : ℕ) : (s.take f).ref = s.ref := rfl

@[simp] theorem take_free (f : ℕ) : (s.take f).free = s.free.erase f := rfl

@[simp] theorem release_word (f : ℕ) : (s.release f).word = s.word := rfl

@[simp] theorem release_free (f : ℕ) : (s.release f).free = insert f s.free := rfl

@[simp] theorem release_ref (f : ℕ) : (s.release f).ref = Function.update s.ref f 0 := rfl

@[simp] theorem ask_word : s.ask.word = s.word := rfl

@[simp] theorem ask_ref : s.ask.ref = s.ref := rfl

@[simp] theorem ask_free : s.ask.free = s.free := rfl

@[simp] theorem install_free (f i page : ℕ) : (s.install f i page).free = s.free.erase page := rfl

@[simp] theorem install_ref (f i page : ℕ) :
    (s.install f i page).ref = Function.update s.ref page 1 := rfl

theorem install_word_of_ne {f i page f' k : ℕ} (hpage : f' ≠ page) (h : f' ≠ f ∨ k ≠ i) :
    (s.install f i page).word f' k = s.word f' k := by
  rw [install, setWord_of_ne _ h]
  simp only [setPage, Function.update_of_ne hpage, setRef_word, take_word]

theorem install_word_self (f i page : ℕ) :
    (s.install f i page).word f i = pteCreate page (pteU ||| pteV) := setWord_self _ _ _ _

theorem install_word_page {f i page : ℕ} (h : page ≠ f) (k : ℕ) :
    (s.install f i page).word page k = 0 := by
  rw [install, setWord_of_ne _ (.inl h)]
  simp only [setPage, Function.update_self]

end Mem

/-- A routine on physical memory. -/
abbrev MemProg (α : Type) : Type := Prog Errno Mem α

/-- The frame behind `KADDR` and `pa2page` of what an entry points to. -/
def frameOf (pte : BitVec 64) : MemProg ℕ := do
  assert (pteFrame pte < npage)
  pure (pteFrame pte)

def pte2page (pte : BitVec 64) : MemProg ℕ := do
  assert (isValid pte = true)
  frameOf pte

/-- `free_page`. A page that is free already is not given back again. -/
def freePage (f : ℕ) : MemProg Unit := do
  let s ← get
  assert (f ∉ s.free)
  modify fun s ↦ s.release f

section Tables

variable (A : Pick)

/-- `alloc_page`; `none` is `NULL`. -/
def allocPage : MemProg (Option ℕ) := do
  let s ← get
  match A s.calls s.free with
  | none => do
    modify Mem.ask
    pure none
  | some f => do
    modify fun s ↦ s.take f
    pure (some f)

/-- One level of `get_pte`: the table behind the entry `i` of the frame `f`, made when it is missing
and `create` is set. -/
def getTable (f i : ℕ) (create : Bool) : MemProg (Option ℕ) := do
  let s ← get
  if isValid (s.word f i) then do
    let page ← frameOf (s.word f i)
    pure (some page)
  else if create then do
    let page ← allocPage A
    match page with
    | none => pure none
    | some page => do
      modify fun s ↦ s.setRef page 1
      modify fun s ↦ s.setPage page fun _ ↦ 0
      modify fun s ↦ s.setWord f i (pteCreate page (pteU ||| pteV))
      let s ← get
      let page ← frameOf (s.word f i)
      pure (some page)
  else
    pure none

/-- `get_pte`: the frame and the index of the entry for `la`; `none` is `NULL`. -/
def getPte (pgdir la : ℕ) (create : Bool) : MemProg (Option (ℕ × ℕ)) := do
  let pd0 ← getTable A pgdir (pdx1 la) create
  match pd0 with
  | none => pure none
  | some pd0 => do
    let pt ← getTable A pd0 (pdx0 la) create
    match pt with
    | none => pure none
    | some pt => pure (some (pt, ptx la))

/-- `page_remove_pte`, with the entry at `ptep`. -/
def pageRemovePte (ptep : ℕ × ℕ) : MemProg Unit := do
  let s ← get
  if isValid (s.word ptep.1 ptep.2) then do
    let page ← pte2page (s.word ptep.1 ptep.2)
    modify fun s ↦ s.setRef page (s.ref page - 1)
    let s ← get
    if s.ref page = 0 then freePage page else pure ()
    modify fun s ↦ s.setWord ptep.1 ptep.2 0
  else
    pure ()

def pageRemove (pgdir la : ℕ) : MemProg Unit := do
  let ptep ← getPte A pgdir la false
  match ptep with
  | none => pure ()
  | some ptep => pageRemovePte ptep

/-- What `page_insert` does with the entry that was there. -/
def dropOld (page : ℕ) (ptep : ℕ × ℕ) : MemProg Unit := do
  let s ← get
  if isValid (s.word ptep.1 ptep.2) then do
    let p ← pte2page (s.word ptep.1 ptep.2)
    if p = page then modify fun s ↦ s.setRef page (s.ref page - 1) else pageRemovePte ptep
  else
    pure ()

def pageInsert (pgdir page la : ℕ) (perm : BitVec 64) : MemProg Unit := do
  let ptep ← getPte A pgdir la true
  match ptep with
  | none => fail .noMem
  | some ptep => do
    modify fun s ↦ s.setRef page (s.ref page + 1)
    dropOld page ptep
    modify fun s ↦ s.setWord ptep.1 ptep.2 (pteCreate page (pteV ||| perm))

/-- `pgdir_alloc_page`, with no address space under check; `none` is `NULL`. -/
def pgdirAllocPage (pgdir la : ℕ) (perm : BitVec 64) : MemProg (Option ℕ) := do
  let page ← allocPage A
  match page with
  | none => pure none
  | some page => do
    let ret ← attempt (pageInsert A pgdir page la perm)
    match ret with
    | .ok () => pure (some page)
    | .error _ => do
      freePage page
      pure none

/-- One round of the loop of `unmap_range` and `copy_range`: `body` is run for the page at `start`
when its page table is there, and a page table that is missing is skipped. The answer is where to go
on. -/
def rangeStep (pgdir : ℕ) (body : ℕ → ℕ × ℕ → MemProg Unit) (start : ℕ) : MemProg ℕ := do
  let ptep ← getPte A pgdir start false
  match ptep with
  | none => pure ((start + ptSize) / ptSize * ptSize)
  | some ptep => do
    body start ptep
    pure (start + pgSize)

/-- The loop of `unmap_range` and `copy_range` from `start` on. -/
def rangeLoop (pgdir stop : ℕ) (body : ℕ → ℕ × ℕ → MemProg Unit) : ℕ → ℕ → MemProg Unit
  | 0, _ => halt
  | fuel + 1, start => do
    let start ← rangeStep A pgdir body start
    if start ≠ 0 ∧ start < stop then rangeLoop pgdir stop body fuel start else pure ()

/-- The rounds that suffice for the loop over a range. -/
def rangeFuel (start stop : ℕ) : ℕ := (stop - start) / pgSize + 1

/-- What `unmap_range` does with an entry. -/
def unmapPte (ptep : ℕ × ℕ) : MemProg Unit := do
  let s ← get
  if s.word ptep.1 ptep.2 ≠ 0 then pageRemovePte ptep else pure ()

def unmapRange (pgdir start stop : ℕ) : MemProg Unit := do
  assert (start % pgSize = 0 ∧ stop % pgSize = 0)
  assert (UserAccess start stop)
  rangeLoop A pgdir stop (fun _ ptep ↦ unmapPte ptep) (rangeFuel start stop) start

/-- `setup_pgdir`; `boot` is the contents of `boot_pgdir`. -/
def setupPgdir (boot : ℕ → BitVec 64) : MemProg ℕ := do
  let page ← allocPage A
  match page with
  | none => fail .noMem
  | some page => do
    modify fun s ↦ s.setPage page boot
    pure page

end Tables

end Ucore
