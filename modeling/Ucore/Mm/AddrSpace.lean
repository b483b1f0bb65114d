import Ucore.Mm.PageRef

/-!
# Address spaces

`mm_struct` and `vma_struct` of `kern/mm/vmm.c`, and how `dup_mmap` copies an address space with
`copy_range` of `kern/mm/pmm.c`. The allocator of structures is a parameter that grants a request or
does not; a structure is named by the number of the request that it was granted to.
-/

namespace Ucore.AddrSpace

open Prog

/-! ## Structures -/

/-- A `vma_struct`. -/
structure Vma where
  ptr : ℕ
  vmStart : ℕ
  vmEnd : ℕ
  vmFlags : BitVec 32

/-- The pages of an area. -/
def Vma.Page (v : Vma) (n : ℕ) : Prop := v.vmStart / pgSize ≤ n ∧ n < v.vmEnd / pgSize

/-- An `mm_struct`, with the areas of `mmap_list` in their order. -/
structure MmStruct where
  ptr : ℕ
  mmapList : List Vma
  pgdir : ℕ
  mmCount : ℤ

/-- Memory, and the structures that `kmalloc` has handed out and not got back; `asked` counts the
requests it got. -/
structure Vm where
  mem : Mem
  live : Finset ℕ
  asked : ℕ

/-- A routine on address spaces. -/
abbrev VmProg (α : Type) : Type := Prog Errno Vm α

/-- A routine on physical memory. -/
def onMem {α : Type} (m : MemProg α) : VmProg α := zoom Vm.mem (fun mem s ↦ { s with mem := mem }) m

theorem onMem_of_ok {α : Type} {m : MemProg α} {t : Vm} {a : α} {mem : Mem}
    (h : m.run t.mem = .ok a mem) : (onMem m).run t = .ok a { t with mem := mem } := zoom_of_ok h

theorem onMem_of_error {α : Type} {m : MemProg α} {t : Vm} {e : Errno} {mem : Mem}
    (h : m.run t.mem = .error e mem) : (onMem m).run t = .error e { t with mem := mem } :=
  zoom_of_error h

theorem onMem_of_panic {α : Type} {m : MemProg α} {t : Vm} (h : m.run t.mem = .panic) :
    (onMem m).run t = .panic := zoom_of_panic h

/-! ## Copying a range -/

section Copy

variable (A : PageSource)

/-- What `copy_range` does with the entry `ptep` for the page at `start`. -/
def copyPte (dst start : ℕ) (ptep : ℕ × ℕ) : MemProg Unit := do
  let s ← get
  let pte := s.word ptep.1 ptep.2
  if isValid pte then do
    let nptep ← getPte A dst start true
    match nptep with
    | none => fail .noMem
    | some _ => do
      let perm := pte &&& pteUser
      let page ← pte2page pte
      let npage ← allocPage A
      match npage with
      | none => halt
      | some npage => do
        modify fun s ↦ s.setPage npage (s.word page)
        let ret ← attempt (pageInsert A dst npage start perm)
        match ret with
        | .ok () => pure ()
        | .error _ => halt
  else
    pure ()

def copyRange (dst src start stop : ℕ) : MemProg Unit := do
  assert (start % pgSize = 0 ∧ stop % pgSize = 0)
  assert (UserAccess start stop)
  rangeLoop A src stop (copyPte A dst) (rangeFuel start stop) start

end Copy

/-! ## Copying an address space -/

/-- `kmalloc` of a structure; `give` says which requests are granted, and `none` is `NULL`. -/
def kmalloc (give : ℕ → Bool) : VmProg (Option ℕ) := do
  let s ← get
  modify fun s ↦ { s with asked := s.asked + 1 }
  if give s.asked then do
    modify fun t ↦ { t with live := insert s.asked t.live }
    pure (some s.asked)
  else
    pure none

def vmaCreate (give : ℕ → Bool) (vmStart vmEnd : ℕ) (vmFlags : BitVec 32) :
    VmProg (Option Vma) := do
  let vma ← kmalloc give
  pure (vma.map fun ptr ↦ ⟨ptr, vmStart, vmEnd, vmFlags⟩)

def checkVmaOverlap (prev next : Vma) : VmProg Unit := do
  assert (prev.vmStart < prev.vmEnd)
  assert (prev.vmEnd ≤ next.vmStart)
  assert (next.vmStart < next.vmEnd)

/-- `check_vma_overlap` of neighbours in the list; at its ends there is nothing to check. -/
def checkNeighbours : Option Vma → Option Vma → VmProg Unit
  | some prev, some next => checkVmaOverlap prev next
  | _, _ => pure ()

def insertVmaStruct (mm : MmStruct) (vma : Vma) : VmProg MmStruct := do
  assert (vma.vmStart < vma.vmEnd)
  let before := mm.mmapList.takeWhile fun v ↦ v.vmStart ≤ vma.vmStart
  let behind := mm.mmapList.dropWhile fun v ↦ v.vmStart ≤ vma.vmStart
  checkNeighbours before.getLast? (some vma)
  checkNeighbours (some vma) behind.head?
  pure { mm with mmapList := before ++ vma :: behind }

section Dup

variable (A : PageSource) (give : ℕ → Bool)

/-- The loop of `dup_mmap` over the areas that are left to copy from the directory `src`. The answer
is the error that is returned, if any, with the copy as far as it is made. -/
def dupVmas (src : ℕ) : List Vma → MmStruct → VmProg (Option Errno × MmStruct)
  | [], dst => pure (none, dst)
  | vma :: rest, dst => do
    let nvma ← vmaCreate give vma.vmStart vma.vmEnd vma.vmFlags
    match nvma with
    | none => pure (some .noMem, dst)
    | some nvma => do
      let dst ← insertVmaStruct dst nvma
      let ret ← attempt (onMem (copyRange A dst.pgdir src vma.vmStart vma.vmEnd))
      match ret with
      | .error _ => pure (some .noMem, dst)
      | .ok () => dupVmas src rest dst

/-- `dup_mmap`: the areas are copied from the last one to the first. -/
def dupMmap (dst src : MmStruct) : VmProg (Option Errno × MmStruct) :=
  dupVmas A give src.pgdir src.mmapList.reverse dst

end Dup

/-! ## Taking an address space down -/

/-- One round of the inner loop of `exit_range`: the page table behind the entry for `d0start` is
freed when all its entries are invalid. The answer is whether there is a page table. -/
def exitPt (pd0 d0start : ℕ) : MemProg Bool := do
  let s ← get
  if isValid (s.word pd0 (pdx0 d0start)) then do
    let pt ← pte2page (s.word pd0 (pdx0 d0start))
    if (List.range 512).all fun i ↦ !isValid (s.word pt i) then do
      freePage pt
      modify fun s ↦ s.setWord pd0 (pdx0 d0start) 0
      pure true
    else
      pure true
  else
    pure false

/-- The inner loop of `exit_range` goes on with the next page table, and with `free_pd0`. -/
def exitPtNext (pd0 d0start : ℕ) (freePd0 : Bool) : MemProg (ℕ × Bool) := do
  let found ← exitPt pd0 d0start
  pure (d0start + ptSize, freePd0 && found)

/-- The inner loop of `exit_range` from `d0start` to `d0end`; the answer is `free_pd0`. -/
def exitPts (pd0 d0end : ℕ) : ℕ → ℕ → Bool → MemProg Bool
  | 0, _, _ => halt
  | fuel + 1, d0start, freePd0 => do
    let next ← exitPtNext pd0 d0start freePd0
    if next.1 ≠ 0 ∧ next.1 < d0end then exitPts pd0 d0end fuel next.1 next.2 else pure next.2

/-- One round of the outer loop of `exit_range`. The inner loop ends at the end of the level 0
directory or at that of the range. -/
def exitPd0 (pgdir d1start d0start stop : ℕ) : MemProg Unit := do
  let s ← get
  if isValid (s.word pgdir (pdx1 d1start)) then do
    let pd0 ← pte2page (s.word pgdir (pdx1 d1start))
    let freePd0 ← exitPts pd0 (min (d1start + pdSize) stop) 512 d0start true
    if freePd0 then do
      freePage pd0
      modify fun s ↦ s.setWord pgdir (pdx1 d1start) 0
    else
      pure ()
  else
    pure ()

/-- The outer loop of `exit_range` goes on with the next level 0 directory. -/
def exitPd0Next (pgdir d1start d0start stop : ℕ) : MemProg ℕ := do
  exitPd0 pgdir d1start d0start stop
  pure (d1start + pdSize)

/-- The outer loop of `exit_range`. -/
def exitPd0s (pgdir stop : ℕ) : ℕ → ℕ → ℕ → MemProg Unit
  | 0, _, _ => halt
  | fuel + 1, d1start, d0start => do
    let next ← exitPd0Next pgdir d1start d0start stop
    if next ≠ 0 ∧ next < stop then exitPd0s pgdir stop fuel next next else pure ()

def exitRange (pgdir start stop : ℕ) : MemProg Unit := do
  assert (start % pgSize = 0 ∧ stop % pgSize = 0)
  assert (UserAccess start stop)
  exitPd0s pgdir stop ((stop - start) / pdSize + 2) (start / pdSize * pdSize)
    (start / ptSize * ptSize)

/-- The first loop of `exit_mmap`. -/
def unmapVmas (A : PageSource) (pgdir : ℕ) : List Vma → MemProg Unit
  | [] => pure ()
  | vma :: rest => do
    unmapRange A pgdir vma.vmStart vma.vmEnd
    unmapVmas A pgdir rest

/-- The second loop of `exit_mmap`. -/
def exitVmas (pgdir : ℕ) : List Vma → MemProg Unit
  | [] => pure ()
  | vma :: rest => do
    exitRange pgdir vma.vmStart vma.vmEnd
    exitVmas pgdir rest

def exitMmap (A : PageSource) (mm : MmStruct) : VmProg Unit := do
  assert (mm.mmCount = 0)
  onMem (unmapVmas A mm.pgdir mm.mmapList)
  onMem (exitVmas mm.pgdir mm.mmapList)

def putPgdir (mm : MmStruct) : VmProg Unit := onMem (freePage mm.pgdir)

/-- `kfree` of a structure. -/
def kfree (ptr : ℕ) : VmProg Unit := modify fun s ↦ { s with live := s.live.erase ptr }

/-- The loop of `mm_destroy`. -/
def kfreeVmas : List Vma → VmProg Unit
  | [] => pure ()
  | vma :: rest => do
    kfree vma.ptr
    kfreeVmas rest

def mmDestroy (mm : MmStruct) : VmProg Unit := do
  assert (mm.mmCount = 0)
  kfreeVmas mm.mmapList
  kfree mm.ptr

/-- The calls that take an address space down: `exit_mmap`, `put_pgdir` and `mm_destroy`. -/
def takeDown (A : PageSource) (mm : MmStruct) : VmProg Unit := do
  exitMmap A mm
  putPgdir mm
  mmDestroy mm

/-! ## User accesses -/

/-- The word `k` of the user page `n` of the directory `d`; a load elsewhere faults. -/
def userLoad (s : Mem) (d n k : ℕ) : Option (BitVec 64) := (s.maps (d, n)).map fun x ↦ s.word x k

/-- A store to a user page. -/
structure UserStore where
  pgdir : ℕ
  page : ℕ
  offset : ℕ
  value : BitVec 64

/-- Memory after a store; a store that faults leaves it as it is. -/
def userStore (s : Mem) (st : UserStore) : Mem :=
  match s.maps (st.pgdir, st.page) with
  | none => s
  | some x => s.setWord x st.offset st.value

/-- Memory after stores. -/
def userStores (s : Mem) (sts : List UserStore) : Mem := sts.foldl userStore s

end Ucore.AddrSpace
