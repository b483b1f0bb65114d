import Ucore.Lib.Extents
import Ucore.Lib.Prog
import Ucore.Lib.Ring

/-!
# Physical page allocators

`kern/mm/default_pmm.c` (first fit) and lab2's `kern/mm/best_fit_pmm.c`. A page is its index in
`pages`; the head pages of the free blocks are linked through `page_link` into the circular list
of `free_list`, which is `none` among the nodes of that list. A loop over the list has as many
rounds as there are nodes; one that needs more never ends.
-/

namespace Ucore

/-- What the allocators use of `struct Page`: the reference count, the flags `PG_reserved` and
`PG_property`, and the size of the free block that starts here. -/
structure Page where
  ref : ℕ
  pageReserved : Bool
  pageProperty : Bool
  property : ℕ
  deriving DecidableEq, Repr

/-- `pages`, with `npage` entries, and `free_area`. -/
structure FreeArea where
  npage : ℕ
  page : ℕ → Page
  /-- `page_link`; the node `none` is `free_list`. -/
  links : Links (Option ℕ)
  nrFree : ℕ

namespace FreeArea

variable (s : FreeArea)

/-- Change the page `p`. -/
def setPage (p : ℕ) (f : Page → Page) : FreeArea :=
  { s with page := Function.update s.page p (f (s.page p)) }

/-- Change `n` pages from `base`. -/
def setPages (base n : ℕ) (f : Page → Page) : FreeArea :=
  { s with page := fun p ↦ if base ≤ p ∧ p < base + n then f (s.page p) else s.page p }

/-- Change the links. -/
def setLinks (L : Links (Option ℕ)) : FreeArea := { s with links := L }

/-- Change `nr_free`. -/
def setFree (n : ℕ) : FreeArea := { s with nrFree := n }

@[simp] theorem setPage_page (p : ℕ) (f : Page → Page) :
    (s.setPage p f).page = Function.update s.page p (f (s.page p)) := rfl

@[simp] theorem setPage_links (p : ℕ) (f : Page → Page) : (s.setPage p f).links = s.links := rfl

@[simp] theorem setPage_nrFree (p : ℕ) (f : Page → Page) : (s.setPage p f).nrFree = s.nrFree := rfl

@[simp] theorem setPage_npage (p : ℕ) (f : Page → Page) : (s.setPage p f).npage = s.npage := rfl

@[simp] theorem setPages_links (base n : ℕ) (f : Page → Page) :
    (s.setPages base n f).links = s.links := rfl

@[simp] theorem setPages_nrFree (base n : ℕ) (f : Page → Page) :
    (s.setPages base n f).nrFree = s.nrFree := rfl

@[simp] theorem setPages_npage (base n : ℕ) (f : Page → Page) :
    (s.setPages base n f).npage = s.npage := rfl

theorem setPages_page_of_mem {base n p : ℕ} (h : base ≤ p ∧ p < base + n) (f : Page → Page) :
    (s.setPages base n f).page p = f (s.page p) := if_pos h

theorem setPages_page_of_notMem {base n p : ℕ} (h : ¬(base ≤ p ∧ p < base + n))
    (f : Page → Page) : (s.setPages base n f).page p = s.page p := if_neg h

@[simp] theorem setLinks_page (L : Links (Option ℕ)) : (s.setLinks L).page = s.page := rfl

@[simp] theorem setLinks_links (L : Links (Option ℕ)) : (s.setLinks L).links = L := rfl

@[simp] theorem setLinks_nrFree (L : Links (Option ℕ)) : (s.setLinks L).nrFree = s.nrFree := rfl

@[simp] theorem setLinks_npage (L : Links (Option ℕ)) : (s.setLinks L).npage = s.npage := rfl

@[simp] theorem setFree_page (n : ℕ) : (s.setFree n).page = s.page := rfl

@[simp] theorem setFree_links (n : ℕ) : (s.setFree n).links = s.links := rfl

@[simp] theorem setFree_nrFree (n : ℕ) : (s.setFree n).nrFree = n := rfl

@[simp] theorem setFree_npage (n : ℕ) : (s.setFree n).npage = s.npage := rfl

/-- `le2page` of the entry behind `le`; `none` is the list head. -/
def listNext (le : Option ℕ) : Option ℕ := s.links.next le

/-- `le2page` of the entry in front of `le`. -/
def listPrev (le : Option ℕ) : Option ℕ := s.links.prev le

/-- `list_empty(&free_list)`. -/
def listEmpty : Prop := s.links.next none = none

instance : Decidable s.listEmpty := inferInstanceAs (Decidable (_ = _))

def listAdd (listelm elm : Option ℕ) : FreeArea :=
  s.setLinks (s.links.link elm listelm (s.links.next listelm))

def listAddBefore (listelm elm : Option ℕ) : FreeArea :=
  s.setLinks (s.links.link elm (s.links.prev listelm) listelm)

def listDel (elm : Option ℕ) : FreeArea :=
  s.setLinks (s.links.bridge (s.links.prev elm) (s.links.next elm))

/-- `PageReserved(p)` of `n` pages from `base`. -/
def reservedAll (base n : ℕ) : Prop := ∀ i < n, (s.page (base + i)).pageReserved = true

instance (base n : ℕ) : Decidable (s.reservedAll base n) := Nat.decidableBallLT n _

/-- `!PageReserved(p) && !PageProperty(p)` of `n` pages from `base`. -/
def plainAll (base n : ℕ) : Prop :=
  ∀ i < n, (s.page (base + i)).pageReserved = false ∧ (s.page (base + i)).pageProperty = false

instance (base n : ℕ) : Decidable (s.plainAll base n) := Nat.decidableBallLT n _

/-- `page_init` up to its call of `init_memmap`, and `default_init`: all pages are reserved and the
list is empty. -/
def boot (npage : ℕ) : FreeArea where
  npage := npage
  page _ := ⟨0, true, false, 0⟩
  links := ⟨fun _ ↦ none, fun _ ↦ none⟩
  nrFree := 0

end FreeArea

/-- A routine of an allocator; it has no error codes. -/
abbrev Pmm (α : Type) : Type := Prog Empty FreeArea α

namespace Pmm

open Prog

/-! ## Insertion by address -/

/-- The loop that looks for the position of `base`, from the entry `le` on. With `brk` it leaves the
loop after an insertion behind the last block, as `best_fit_init_memmap` does; the other routines
go on, and the next entry is then `base` itself. -/
def insertLoop (brk : Bool) (base : ℕ) : ℕ → Option ℕ → Pmm Unit
  | 0, _ => halt
  | fuel + 1, le => do
    let s ← get
    match s.listNext le with
    | none => pure ()
    | some page =>
      if base < page then
        modify fun s ↦ s.listAddBefore (some page) (some base)
      else if s.listNext (some page) = none then do
        modify fun s ↦ s.listAdd (some page) (some base)
        if brk then pure () else insertLoop brk base fuel (some page)
      else
        insertLoop brk base fuel (some page)

/-- Enter `base` into the free list. -/
def insertBlock (brk : Bool) (base : ℕ) : Pmm Unit := do
  let s ← get
  if s.listEmpty then
    modify fun s ↦ s.listAdd none (some base)
  else
    insertLoop brk base (s.npage + 1) none

/-- The block of `n` pages from `base` becomes a free block outside the list. -/
def markFree (base n : ℕ) (s : FreeArea) : FreeArea :=
  (s.setPage base fun p ↦ { p with property := n, pageProperty := true }).setFree (s.nrFree + n)

/-- `*_init_memmap`. -/
def initMemmap (brk : Bool) (base n : ℕ) : Pmm Unit := do
  assert (0 < n)
  let s ← get
  assert (s.reservedAll base n)
  modify fun s ↦ s.setPages base n fun _ ↦ ⟨0, false, false, 0⟩
  modify (markFree base n)
  insertBlock brk base

/-! ## Allocation -/

/-- The search of `default_alloc_pages`: the first block of at least `n` pages. -/
def firstFit (n : ℕ) : ℕ → Option ℕ → Pmm (Option ℕ)
  | 0, _ => halt
  | fuel + 1, le => do
    let s ← get
    match s.listNext le with
    | none => pure none
    | some p => if n ≤ (s.page p).property then pure (some p) else firstFit n fuel (some p)

/-- The search of `best_fit_alloc_pages`: the first of the smallest blocks of at least `n` pages;
`page` is the best one so far and `minSize` its size. -/
def bestFit (n : ℕ) : ℕ → Option ℕ → Option ℕ → ℕ → Pmm (Option ℕ)
  | 0, _, _, _ => halt
  | fuel + 1, le, page, minSize => do
    let s ← get
    match s.listNext le with
    | none => pure page
    | some p =>
      if n ≤ (s.page p).property ∧ (s.page p).property < minSize then
        bestFit n fuel (some p) (some p) (s.page p).property
      else
        bestFit n fuel (some p) page minSize

/-- Cut the first `n` pages off the free block `page`. -/
def carve (page n : ℕ) (s : FreeArea) : FreeArea :=
  let prev := s.listPrev (some page)
  let s := s.listDel (some page)
  let s :=
    if n < (s.page page).property then
      (s.setPage (page + n) fun p ↦
        { p with property := (s.page page).property - n, pageProperty := true }).listAdd prev
          (some (page + n))
    else s
  (s.setFree (s.nrFree - n)).setPage page fun p ↦ { p with pageProperty := false }

/-- `*_alloc_pages` with the search `select`; the answer `none` is `NULL`. -/
def allocPages (select : ℕ → Pmm (Option ℕ)) (n : ℕ) : Pmm (Option ℕ) := do
  assert (0 < n)
  let s ← get
  if s.nrFree < n then
    pure none
  else do
    let page ← select n
    match page with
    | none => pure none
    | some page => do
      modify (carve page n)
      pure (some page)

/-! ## Release -/

/-- Merge the block `base` into the one that ends where it starts; the answer is the head of the
block that `base` is part of now. -/
def mergePrev (base : ℕ) : Pmm ℕ := do
  let s ← get
  match s.listPrev (some base) with
  | none => pure base
  | some p =>
    if p + (s.page p).property = base then do
      modify fun s ↦ s.setPage p fun q ↦ { q with property := q.property + (s.page base).property }
      modify fun s ↦ (s.setPage base fun q ↦ { q with pageProperty := false }).listDel (some base)
      pure p
    else
      pure base

/-- Merge the block that starts where `base` ends into `base`. -/
def mergeNext (base : ℕ) : Pmm Unit := do
  let s ← get
  match s.listNext (some base) with
  | none => pure ()
  | some p =>
    if base + (s.page base).property = p then do
      modify fun s ↦ s.setPage base fun q ↦ { q with property := q.property + (s.page p).property }
      modify fun s ↦ (s.setPage p fun q ↦ { q with pageProperty := false }).listDel (some p)
    else
      pure ()

/-- `*_free_pages`. -/
def freePages (brk : Bool) (base n : ℕ) : Pmm Unit := do
  assert (0 < n)
  let s ← get
  assert (s.plainAll base n)
  modify fun s ↦ s.setPages base n fun p ↦
    { p with pageReserved := false, pageProperty := false, ref := 0 }
  modify (markFree base n)
  insertBlock brk base
  let base ← mergePrev base
  mergeNext base

end Pmm

/-! ## The managers -/

/-- `struct pmm_manager`. -/
structure PmmManager where
  initMemmap : ℕ → ℕ → Pmm Unit
  allocPages : ℕ → Pmm (Option ℕ)
  freePages : ℕ → ℕ → Pmm Unit

def defaultInitMemmap : ℕ → ℕ → Pmm Unit := Pmm.initMemmap false

/-- The loop of `default_alloc_pages`. -/
def defaultSelect (n : ℕ) : Pmm (Option ℕ) := do
  let s ← Prog.get
  Pmm.firstFit n (s.npage + 1) none

def defaultAllocPages : ℕ → Pmm (Option ℕ) := Pmm.allocPages defaultSelect

def defaultFreePages : ℕ → ℕ → Pmm Unit := Pmm.freePages false

def defaultPmmManager : PmmManager := ⟨defaultInitMemmap, defaultAllocPages, defaultFreePages⟩

def bestFitInitMemmap : ℕ → ℕ → Pmm Unit := Pmm.initMemmap true

/-- The loop of `best_fit_alloc_pages`. -/
def bestFitSelect (n : ℕ) : Pmm (Option ℕ) := do
  let s ← Prog.get
  Pmm.bestFit n (s.npage + 1) none none (s.nrFree + 1)

def bestFitAllocPages : ℕ → Pmm (Option ℕ) := Pmm.allocPages bestFitSelect

def bestFitFreePages : ℕ → ℕ → Pmm Unit := Pmm.freePages false

def bestFitPmmManager : PmmManager := ⟨bestFitInitMemmap, bestFitAllocPages, bestFitFreePages⟩

end Ucore
