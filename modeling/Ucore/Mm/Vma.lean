import Ucore.Lib.IntervalList
import Ucore.Mm.DupMmap

/-!
# The areas of an address space

The rest of `kern/mm/vmm.c` on the list of areas of an `mm_struct`: `find_vma` with its cache,
`insert_vma_struct` and `mm_map`, and `user_mem_check`. Addresses are words of 64 bits, and the sums
that the source forms wrap around.

The list is a sorted list of disjoint intervals in every run (`vmaSteps_separate`), and
`user_mem_check` is exact (`userMemCheck_iff`). `mm_map` looks for the area that holds the start of
the new one only, so that an area that begins further on is found by the assertion of
`insert_vma_struct` (`mmMap_exact_iff`).
-/

namespace Ucore.AddrSpace

open Prog IntervalList

/-! ## The routines -/

/-- An `mm_struct` with its cache and its count. -/
structure Mm extends MmStruct where
  mmapCache : Option Vma
  mapCount : ℕ

/-- `mm_create`, for a structure at `ptr` whose directory is set to `pgdir` afterwards. -/
def mmCreate (ptr pgdir : ℕ) : Mm := ⟨⟨ptr, [], pgdir, 0⟩, none, 0⟩

/-- `vma->vm_start <= addr && addr < vma->vm_end`. -/
def Vma.Holds (v : Vma) (addr : ℕ) : Prop := v.vmStart ≤ addr ∧ addr < v.vmEnd

instance (v : Vma) (addr : ℕ) : Decidable (v.Holds addr) := inferInstanceAs (Decidable (_ ∧ _))

/-- `find_vma`, with the `mm_struct` as it is afterwards. -/
def findVma (mm : Mm) (addr : ℕ) : Option Vma × Mm :=
  match mm.mmapCache.filter (fun v ↦ v.Holds addr) with
  | some vma => (some vma, { mm with mmapCache := some vma })
  | none =>
    match mm.mmapList.find? (fun v ↦ v.Holds addr) with
    | some vma => (some vma, { mm with mmapCache := some vma })
    | none => (none, mm)

/-- `insert_vma_struct`, with the count. -/
def insertVma (mm : Mm) (vma : Vma) : VmProg Mm := do
  let m ← insertVmaStruct mm.toMmStruct vma
  pure { mm with toMmStruct := m, mapCount := mm.mapCount + 1 }

/-- The numbers of `uintptr_t`. -/
def wordSize : ℕ := 2 ^ 64

/-- `ROUNDDOWN(a, PGSIZE)`. -/
def roundDown (a : ℕ) : ℕ := a - a % pgSize

/-- `ROUNDUP(a, PGSIZE)`. -/
def roundUp (a : ℕ) : ℕ := roundDown ((a + (pgSize - 1)) % wordSize)

section Map

variable (give : ℕ → Bool)

/-- The part of `mm_map` from `vma_create` on. -/
def mmMapNew (mm : Mm) (start stop : ℕ) (vmFlags : BitVec 32) : VmProg (Except Errno Vma × Mm) := do
  let vma ← vmaCreate give start stop vmFlags
  match vma with
  | none => pure (.error .noMem, mm)
  | some vma => do
    let mm ← insertVma mm vma
    pure (.ok vma, mm)

/-- `mm_map`: the error that is returned or the area that is stored through `vma_store`, and the
`mm_struct` as it is afterwards. -/
def mmMap (mm : Mm) (addr len : ℕ) (vmFlags : BitVec 32) : VmProg (Except Errno Vma × Mm) :=
  let start := roundDown addr
  let stop := roundUp ((addr + len) % wordSize)
  if UserAccess start stop then
    match findVma mm start with
    | (some vma, mm) =>
      if vma.vmStart < stop then pure (.error .inval, mm) else mmMapNew give mm start stop vmFlags
    | (none, mm) => mmMapNew give mm start stop vmFlags
  else
    pure (.error .inval, mm)

variable (A : PageSource)

/-- The loop of `dup_mmap`, as `dupVmas`, on an `mm_struct` with its count. -/
def dupAreas (src : ℕ) : List Vma → Mm → VmProg (Option Errno × Mm)
  | [], dst => pure (none, dst)
  | vma :: rest, dst => do
    let nvma ← vmaCreate give vma.vmStart vma.vmEnd vma.vmFlags
    match nvma with
    | none => pure (some .noMem, dst)
    | some nvma => do
      let dst ← insertVma dst nvma
      let ret ← attempt (onMem (copyRange A dst.pgdir src vma.vmStart vma.vmEnd))
      match ret with
      | .error _ => pure (some .noMem, dst)
      | .ok () => dupAreas src rest dst

/-- `dup_mmap`, on an `mm_struct` with its count. -/
def dupMm (dst src : Mm) : VmProg (Option Errno × Mm) :=
  dupAreas give A src.pgdir src.mmapList.reverse dst

end Map

def vmRead : BitVec 32 := 1

def vmWrite : BitVec 32 := 2

def vmStack : BitVec 32 := 8

/-- The checks of `user_mem_check` on the area that holds `start`. -/
def Vma.Refuses (v : Vma) (write : Bool) (start : ℕ) : Prop :=
  (v.vmFlags &&& if write then vmWrite else vmRead) = 0 ∨
    (write = true ∧ v.vmFlags &&& vmStack ≠ 0 ∧ start < (v.vmStart + pgSize) % wordSize)

instance (v : Vma) (write : Bool) (start : ℕ) : Decidable (v.Refuses write start) :=
  inferInstanceAs (Decidable (_ ∨ _))

/-- The loop of `user_mem_check`; there is no answer when it is not through after `fuel` rounds. -/
def userMemLoop (write : Bool) (stop : ℕ) : ℕ → ℕ → Mm → Option (Bool × Mm)
  | 0, _, _ => none
  | fuel + 1, start, mm =>
    if start < stop then
      match findVma mm start with
      | (none, mm) => some (false, mm)
      | (some vma, mm) =>
        if start < vma.vmStart then some (false, mm)
        else if vma.Refuses write start then some (false, mm)
        else userMemLoop write stop fuel vma.vmEnd mm
    else
      some (true, mm)

def kernBase : ℕ := 0xFFFFFFFFC0200000

def kernTop : ℕ := kernBase + 0x7E00000

/-- `KERN_ACCESS(start, end)`. -/
def KernAccess (start stop : ℕ) : Prop := kernBase ≤ start ∧ start < stop ∧ stop ≤ kernTop

instance (start stop : ℕ) : Decidable (KernAccess start stop) :=
  inferInstanceAs (Decidable (_ ∧ _ ∧ _))

/-- `user_mem_check`; `none` is a null `mm`. -/
def userMemCheck (fuel : ℕ) (mm : Option Mm) (addr len : ℕ) (write : Bool) :
    Option (Bool × Option Mm) :=
  let stop := (addr + len) % wordSize
  match mm with
  | none => some (decide (KernAccess addr stop), none)
  | some mm =>
    if UserAccess addr stop then
      (userMemLoop write stop fuel addr mm).map fun r ↦ (r.1, some r.2)
    else
      some (false, some mm)

/-! ## Looking up an address -/

/-- The list of areas is in order, the count is right and the cache is in the list. -/
structure Mm.Wf (mm : Mm) : Prop where
  separate : Separate Vma.vmStart Vma.vmEnd mm.mmapList
  count : mm.mapCount = mm.mmapList.length
  cache : ∀ v, mm.mmapCache = some v → v ∈ mm.mmapList

section Find

variable {mm : Mm} {v w : Vma} {addr : ℕ}

theorem Mm.Wf.create (ptr pgdir : ℕ) : (mmCreate ptr pgdir).Wf :=
  ⟨.nil, rfl, fun _ h ↦ by cases h⟩

theorem Mm.Wf.setCache (h : mm.Wf) (hv : v ∈ mm.mmapList) :
    ({ mm with mmapCache := some v } : Mm).Wf :=
  ⟨h.separate, h.count, fun _ hw ↦ Option.some.inj hw ▸ hv⟩

/-- At most one area holds an address. -/
theorem Mm.Wf.eq_of_holds (h : mm.Wf) (hv : v ∈ mm.mmapList) (hw : w ∈ mm.mmapList)
    (hva : v.Holds addr) (hwa : w.Holds addr) : v = w :=
  h.separate.eq_of_mem hv hw hva hwa

/-- The cache and the scan agree. -/
theorem findVma_cases (h : mm.Wf) (addr : ℕ) :
    (∃ v ∈ mm.mmapList, v.Holds addr ∧
        findVma mm addr = (some v, { mm with mmapCache := some v })) ∨
      ((∀ v ∈ mm.mmapList, ¬v.Holds addr) ∧ findVma mm addr = (none, mm)) := by
  rw [findVma]
  cases hc : mm.mmapCache.filter (fun v ↦ decide (v.Holds addr)) with
  | some v =>
    obtain ⟨hcache, hholds⟩ := Option.filter_eq_some_iff.mp hc
    exact .inl ⟨v, h.cache v hcache, of_decide_eq_true hholds, rfl⟩
  | none =>
    cases hf : mm.mmapList.find? (fun v ↦ decide (v.Holds addr)) with
    | some v =>
      have hholds := List.find?_some (p := fun v : Vma ↦ decide (v.Holds addr)) hf
      exact .inl ⟨v, List.mem_of_find?_eq_some hf, of_decide_eq_true hholds, rfl⟩
    | none =>
      refine .inr ⟨fun v hv hholds ↦ ?_, rfl⟩
      exact List.find?_eq_none.mp hf v hv (decide_eq_true hholds)

theorem findVma_wf (h : mm.Wf) (addr : ℕ) : (findVma mm addr).2.Wf := by
  rcases findVma_cases h addr with ⟨v, hv, -, hfind⟩ | ⟨-, hfind⟩
  · rw [hfind]
    exact h.setCache hv
  · rw [hfind]
    exact h

end Find

/-! ## Inserting an area -/

section Insert

variable {mm mm' : Mm} {v w : Vma} {t t' : Vm}

theorem checkVmaOverlap_ok (hv : v.vmStart < v.vmEnd) (hvw : v.vmEnd ≤ w.vmStart)
    (hw : w.vmStart < w.vmEnd) (t : Vm) : (checkVmaOverlap v w).run t = .ok () t := by
  rw [checkVmaOverlap, assert_bind_run hv, assert_bind_run hvw, run_assert hw]

theorem checkVmaOverlap_panic (hv : v.vmStart < v.vmEnd) (hvw : ¬v.vmEnd ≤ w.vmStart) (t : Vm) :
    (checkVmaOverlap v w).run t = .panic := by
  rw [checkVmaOverlap, assert_bind_run hv, assert_bind_run_neg hvw]

/-- `insert_vma_struct` of an area that is not empty. -/
theorem insertVmaStruct_eq (mm : MmStruct) (hv : v.vmStart < v.vmEnd) (t : Vm) :
    (insertVmaStruct mm v).run t =
      (checkNeighbours (upTo Vma.vmStart v.vmStart mm.mmapList).getLast? (some v) >>= fun _ ↦
        checkNeighbours (some v) (past Vma.vmStart v.vmStart mm.mmapList).head? >>= fun _ ↦
          pure { mm with
            mmapList := upTo Vma.vmStart v.vmStart mm.mmapList ++
              v :: past Vma.vmStart v.vmStart mm.mmapList }).run t := by
  rw [insertVmaStruct, assert_bind_run hv]
  rfl

/-- An area that fits is spliced in. -/
theorem insertVma_of_fits (h : mm.Wf) (hf : Fits Vma.vmStart Vma.vmEnd v mm.mmapList) (t : Vm) :
    (insertVma mm v).run t = .ok
      { mm with
        mmapList := upTo Vma.vmStart v.vmStart mm.mmapList ++
          v :: past Vma.vmStart v.vmStart mm.mmapList
        mapCount := mm.mapCount + 1 } t := by
  have hsub : ∀ w, w ∈ upTo Vma.vmStart v.vmStart mm.mmapList ++
      past Vma.vmStart v.vmStart mm.mmapList → w.vmStart < w.vmEnd := fun w hw ↦
    h.separate.nonempty w (by rwa [upTo_append_past] at hw)
  have hleft : (checkNeighbours (upTo Vma.vmStart v.vmStart mm.mmapList).getLast? (some v)).run t =
      .ok () t := by
    cases hl : (upTo Vma.vmStart v.vmStart mm.mmapList).getLast? with
    | none => rfl
    | some w =>
      refine checkVmaOverlap_ok (hsub w ?_) (hf.left w hl) hf.nonempty t
      exact List.mem_append_left _ (List.mem_of_getLast? hl)
  have hright : (checkNeighbours (some v) (past Vma.vmStart v.vmStart mm.mmapList).head?).run t =
      .ok () t := by
    cases hr : (past Vma.vmStart v.vmStart mm.mmapList).head? with
    | none => rfl
    | some w =>
      refine checkVmaOverlap_ok hf.nonempty (hf.right w hr) (hsub w ?_) t
      exact List.mem_append_right _ (List.mem_of_head? hr)
  have hrun : (insertVmaStruct mm.toMmStruct v).run t = .ok { mm.toMmStruct with
      mmapList := upTo Vma.vmStart v.vmStart mm.mmapList ++
        v :: past Vma.vmStart v.vmStart mm.mmapList } t := by
    rw [insertVmaStruct_eq _ hf.nonempty, bind_of_ok hleft, bind_of_ok hright, run_pure]
  rw [insertVma, bind_of_ok hrun, run_pure]

/-- When `insert_vma_struct` returns, the area fitted: the assertions have seen to it. -/
theorem fits_of_insertVma (h : mm.Wf) (hrun : (insertVma mm v).run t = .ok mm' t') :
    Fits Vma.vmStart Vma.vmEnd v mm.mmapList := by
  rw [insertVma, run_bind] at hrun
  have hv : v.vmStart < v.vmEnd := by
    by_contra hv
    rw [insertVmaStruct, assert_bind_run_neg hv] at hrun
    cases hrun
  rw [insertVmaStruct_eq _ hv] at hrun
  refine ⟨hv, fun w hw ↦ ?_, fun w hw ↦ ?_⟩
  · by_contra hle
    have hmem := (List.takeWhile_sublist _).subset (List.mem_of_getLast? hw)
    have hcheck : (checkNeighbours (upTo Vma.vmStart v.vmStart mm.mmapList).getLast?
        (some v)).run t = .panic := by
      rw [hw]
      exact checkVmaOverlap_panic (h.separate.nonempty w hmem) hle t
    rw [bind_of_panic hcheck] at hrun
    cases hrun
  · by_contra hle
    have hcheck : ∀ t, (checkNeighbours (some v)
        (past Vma.vmStart v.vmStart mm.mmapList).head?).run t = .panic := fun t ↦ by
      rw [hw]
      exact checkVmaOverlap_panic hv hle t
    cases hl : (checkNeighbours (upTo Vma.vmStart v.vmStart mm.mmapList).getLast?
        (some v)).run t with
    | ok a t₁ =>
      rw [bind_of_ok hl, bind_of_panic (hcheck t₁)] at hrun
      cases hrun
    | error e t₁ =>
      rw [bind_of_error hl] at hrun
      cases hrun
    | panic =>
      rw [bind_of_panic hl] at hrun
      cases hrun

/-- `insert_vma_struct` keeps the list in order. -/
theorem insertVma_wf (h : mm.Wf) (hrun : (insertVma mm v).run t = .ok mm' t') :
    mm'.Wf ∧ (∀ w, w ∈ mm'.mmapList ↔ w = v ∨ w ∈ mm.mmapList) := by
  have hf := fits_of_insertVma h hrun
  rw [insertVma_of_fits h hf] at hrun
  obtain ⟨rfl, -⟩ := Outcome.ok.inj hrun
  refine ⟨⟨h.separate.splice hf, ?_, fun w hw ↦ mem_splice.mpr (.inr (h.cache w hw))⟩,
    fun w ↦ mem_splice⟩
  rw [length_splice, h.count]

end Insert

/-! ## Runs -/

section Runs

variable {give : ℕ → Bool} {A : PageSource} {mm mm' : Mm} {t t' : Vm}

theorem mmMapNew_wf (h : mm.Wf) {start stop : ℕ} {vmFlags : BitVec 32} {r : Except Errno Vma}
    (hrun : (mmMapNew give mm start stop vmFlags).run t = .ok (r, mm') t') : mm'.Wf := by
  obtain ⟨vma, t₁, hcreate, -⟩ := vmaCreate_run give start stop vmFlags t
  rw [mmMapNew, bind_of_ok hcreate] at hrun
  cases vma with
  | none =>
    obtain ⟨hr, -⟩ := Outcome.ok.inj hrun
    exact (Prod.mk.inj hr).2 ▸ h
  | some v =>
    dsimp only at hrun
    cases hins : (insertVma mm v).run t₁ with
    | ok m t₂ =>
      rw [bind_of_ok hins, run_pure] at hrun
      obtain ⟨hr, -⟩ := Outcome.ok.inj hrun
      exact (Prod.mk.inj hr).2 ▸ (insertVma_wf h hins).1
    | error e t₂ =>
      rw [bind_of_error hins] at hrun
      cases hrun
    | panic =>
      rw [bind_of_panic hins] at hrun
      cases hrun

theorem mmMap_wf (h : mm.Wf) {addr len : ℕ} {vmFlags : BitVec 32} {r : Except Errno Vma}
    (hrun : (mmMap give mm addr len vmFlags).run t = .ok (r, mm') t') : mm'.Wf := by
  rw [mmMap] at hrun
  by_cases hacc : UserAccess (roundDown addr) (roundUp ((addr + len) % wordSize))
  swap
  · rw [if_neg hacc] at hrun
    obtain ⟨hr, -⟩ := Outcome.ok.inj hrun
    exact (Prod.mk.inj hr).2 ▸ h
  rw [if_pos hacc] at hrun
  rcases findVma_cases h (roundDown addr) with ⟨v, hv, -, hfind⟩ | ⟨-, hfind⟩
  · rw [hfind] at hrun
    dsimp only at hrun
    by_cases hlt : v.vmStart < roundUp ((addr + len) % wordSize)
    · rw [if_pos hlt] at hrun
      obtain ⟨hr, -⟩ := Outcome.ok.inj hrun
      exact (Prod.mk.inj hr).2 ▸ h.setCache hv
    · rw [if_neg hlt] at hrun
      exact mmMapNew_wf (h.setCache hv) hrun
  · rw [hfind] at hrun
    exact mmMapNew_wf h hrun

theorem dupAreas_wf {src : ℕ} {vmas : List Vma} {r : Option Errno} (h : mm.Wf)
    (hrun : (dupAreas give A src vmas mm).run t = .ok (r, mm') t') : mm'.Wf := by
  induction vmas generalizing mm t with
  | nil =>
    obtain ⟨hr, -⟩ := Outcome.ok.inj hrun
    exact (Prod.mk.inj hr).2 ▸ h
  | cons v vmas ih =>
    obtain ⟨nvma, t₁, hcreate, -⟩ := vmaCreate_run give v.vmStart v.vmEnd v.vmFlags t
    rw [dupAreas, bind_of_ok hcreate] at hrun
    cases nvma with
    | none =>
      obtain ⟨hr, -⟩ := Outcome.ok.inj hrun
      exact (Prod.mk.inj hr).2 ▸ h
    | some nvma =>
      dsimp only at hrun
      cases hins : (insertVma mm nvma).run t₁ with
      | error e t₂ =>
        rw [bind_of_error hins] at hrun
        cases hrun
      | panic =>
        rw [bind_of_panic hins] at hrun
        cases hrun
      | ok m t₂ =>
        have hm := (insertVma_wf h hins).1
        rw [bind_of_ok hins] at hrun
        cases hcopy : (attempt (onMem (copyRange A m.pgdir src v.vmStart v.vmEnd))).run t₂ with
        | error e t₃ =>
          rw [bind_of_error hcopy] at hrun
          cases hrun
        | panic =>
          rw [bind_of_panic hcopy] at hrun
          cases hrun
        | ok ret t₃ =>
          rw [bind_of_ok hcopy] at hrun
          cases ret with
          | error e =>
            obtain ⟨hr, -⟩ := Outcome.ok.inj hrun
            exact (Prod.mk.inj hr).2 ▸ hm
          | ok a => exact ih hm hrun

theorem insertVmaStruct_of_insertVma {v : Vma} (hrun : (insertVma mm v).run t = .ok mm' t') :
    (insertVmaStruct mm.toMmStruct v).run t = .ok mm'.toMmStruct t' := by
  rw [insertVma] at hrun
  cases hins : (insertVmaStruct mm.toMmStruct v).run t with
  | ok m t₁ =>
    rw [bind_of_ok hins, run_pure] at hrun
    obtain ⟨rfl, rfl⟩ := Outcome.ok.inj hrun
    rfl
  | error e t₁ =>
    rw [bind_of_error hins] at hrun
    cases hrun
  | panic =>
    rw [bind_of_panic hins] at hrun
    cases hrun

/-- The count and the cache aside, the copy is the one that `dup_mmap` makes. -/
theorem dupVmas_of_dupAreas {src : ℕ} {vmas : List Vma} {r : Option Errno}
    (hrun : (dupAreas give A src vmas mm).run t = .ok (r, mm') t') :
    (dupVmas A give src vmas mm.toMmStruct).run t = .ok (r, mm'.toMmStruct) t' := by
  induction vmas generalizing mm t with
  | nil =>
    obtain ⟨hr, rfl⟩ := Outcome.ok.inj hrun
    obtain ⟨rfl, rfl⟩ := Prod.mk.inj hr
    rfl
  | cons v vmas ih =>
    obtain ⟨nvma, t₁, hcreate, -⟩ := vmaCreate_run give v.vmStart v.vmEnd v.vmFlags t
    rw [dupAreas, bind_of_ok hcreate] at hrun
    rw [dupVmas, bind_of_ok hcreate]
    cases nvma with
    | none =>
      obtain ⟨hr, rfl⟩ := Outcome.ok.inj hrun
      obtain ⟨rfl, rfl⟩ := Prod.mk.inj hr
      rfl
    | some nvma =>
      dsimp only at hrun ⊢
      cases hins : (insertVma mm nvma).run t₁ with
      | error e t₂ =>
        rw [bind_of_error hins] at hrun
        cases hrun
      | panic =>
        rw [bind_of_panic hins] at hrun
        cases hrun
      | ok m t₂ =>
        rw [bind_of_ok hins] at hrun
        rw [bind_of_ok (insertVmaStruct_of_insertVma hins)]
        cases hcopy : (attempt (onMem (copyRange A m.pgdir src v.vmStart v.vmEnd))).run t₂ with
        | error e t₃ =>
          rw [bind_of_error hcopy] at hrun
          cases hrun
        | panic =>
          rw [bind_of_panic hcopy] at hrun
          cases hrun
        | ok ret t₃ =>
          rw [bind_of_ok hcopy] at hrun ⊢
          cases ret with
          | error e =>
            obtain ⟨hr, rfl⟩ := Outcome.ok.inj hrun
            obtain ⟨rfl, rfl⟩ := Prod.mk.inj hr
            rfl
          | ok a => exact ih hrun

/-- A call on an address space that returns, in any state of memory. In `dup` it is the copy that is
made; the one that is copied does not change. -/
inductive VmaStep : Mm → Mm → Prop
  | insert (v : Vma) {mm mm' : Mm} {t t' : Vm} (h : (insertVma mm v).run t = .ok mm' t') :
    VmaStep mm mm'
  | map (give : ℕ → Bool) (addr len : ℕ) (vmFlags : BitVec 32) {mm mm' : Mm} {r : Except Errno Vma}
    {t t' : Vm} (h : (mmMap give mm addr len vmFlags).run t = .ok (r, mm') t') : VmaStep mm mm'
  | dup (give : ℕ → Bool) (A : PageSource) (src : Mm) {mm mm' : Mm} {r : Option Errno} {t t' : Vm}
    (h : (dupMm give A mm src).run t = .ok (r, mm') t') : VmaStep mm mm'
  | find (addr : ℕ) {mm : Mm} : VmaStep mm (findVma mm addr).2

theorem VmaStep.wf (hstep : VmaStep mm mm') (h : mm.Wf) : mm'.Wf := by
  cases hstep with
  | insert v hrun => exact (insertVma_wf h hrun).1
  | map give addr len vmFlags hrun => exact mmMap_wf h hrun
  | dup give A src hrun => exact dupAreas_wf h hrun
  | find addr => exact findVma_wf h addr

theorem wf_of_vmaSteps {ptr pgdir : ℕ} (h : Relation.ReflTransGen VmaStep (mmCreate ptr pgdir) mm) :
    mm.Wf := by
  induction h with
  | refl => exact .create ptr pgdir
  | tail _ hstep ih => exact hstep.wf ih

/-- `insert_vma_struct` returns for an area that overlaps none of the list, and for no other. -/
theorem insertVma_returns_iff (h : mm.Wf) (v : Vma) (t : Vm) :
    (∃ mm', (insertVma mm v).run t = .ok mm' t ∧
      ∀ w, w ∈ mm'.mmapList ↔ w = v ∨ w ∈ mm.mmapList) ↔
    v.vmStart < v.vmEnd ∧ ∀ w ∈ mm.mmapList, w.vmEnd ≤ v.vmStart ∨ v.vmEnd ≤ w.vmStart := by
  constructor
  · rintro ⟨mm', hrun, -⟩
    have hf := fits_of_insertVma h hrun
    exact ⟨hf.nonempty, fun w hw ↦ hf.apart h.separate hw⟩
  · rintro ⟨hv, hdisj⟩
    have hrun := insertVma_of_fits h (h.separate.fits hv hdisj) t
    exact ⟨_, hrun, (insertVma_wf h hrun).2⟩

/-- **The areas are disjoint intervals in order**, in every run, and `find_vma` finds the one that
holds an address. An area can be inserted exactly when it overlaps none of them. -/
theorem vmaSteps_separate {ptr pgdir : ℕ}
    (h : Relation.ReflTransGen VmaStep (mmCreate ptr pgdir) mm) :
    mm.mmapList.Pairwise (fun v w ↦ v.vmStart < w.vmStart) ∧
    mm.mmapList.Pairwise (fun v w ↦ v.vmEnd ≤ w.vmStart) ∧
    (∀ v ∈ mm.mmapList, v.vmStart < v.vmEnd) ∧ mm.mapCount = mm.mmapList.length ∧
    (∀ v, mm.mmapCache = some v → v ∈ mm.mmapList) ∧
    (∀ v t, (∃ mm', (insertVma mm v).run t = .ok mm' t ∧
        ∀ w, w ∈ mm'.mmapList ↔ w = v ∨ w ∈ mm.mmapList) ↔
      v.vmStart < v.vmEnd ∧ ∀ w ∈ mm.mmapList, w.vmEnd ≤ v.vmStart ∨ v.vmEnd ≤ w.vmStart) ∧
    ∀ addr, ((findVma mm addr).1 = none ∧ ∀ v ∈ mm.mmapList, ¬v.Holds addr) ∨
      ∃ v ∈ mm.mmapList, (findVma mm addr).1 = some v ∧ v.Holds addr ∧
        ∀ w ∈ mm.mmapList, w.Holds addr → w = v := by
  have hwf := wf_of_vmaSteps h
  refine ⟨hwf.separate.lo_lt, hwf.separate.sorted, hwf.separate.nonempty, hwf.count, hwf.cache,
    insertVma_returns_iff hwf, fun addr ↦ ?_⟩
  rcases findVma_cases hwf addr with ⟨v, hv, hholds, hfind⟩ | ⟨hnone, hfind⟩
  · rw [hfind]
    exact .inr ⟨v, hv, rfl, hholds, fun w hw hwa ↦ hwf.eq_of_holds hw hv hwa hholds⟩
  · rw [hfind]
    exact .inl ⟨rfl, hnone⟩

/-- An address space with an area, after a lookup in it. -/
def highMm : Mm :=
  ⟨⟨0, [⟨1, 0x300000, 0x400000, 3⟩], 0, 0⟩, some ⟨1, 0x300000, 0x400000, 3⟩, 1⟩

/-- The same with a second area in front of the first. -/
def twoMm : Mm :=
  ⟨⟨0, [⟨2, 0x200000, 0x300000, 1⟩, ⟨1, 0x300000, 0x400000, 3⟩], 0, 0⟩,
    some ⟨1, 0x300000, 0x400000, 3⟩, 2⟩

/-- A machine with nothing on it. -/
def bareVm : Vm := ⟨(PageState.init (fun _ _ ↦ 0) ∅).mem, ∅, 0⟩

theorem highMm_run : Relation.ReflTransGen VmaStep (mmCreate 0 0) highMm := by
  have hins : (insertVma (mmCreate 0 0) ⟨1, 0x300000, 0x400000, 3⟩).run bareVm =
      .ok { highMm with mmapCache := none } bareVm := rfl
  have hfind : (findVma { highMm with mmapCache := none } 0x3FFFFF).2 = highMm := rfl
  exact .tail (.single (.insert _ hins)) (hfind ▸ .find 0x3FFFFF)

theorem twoMm_run : Relation.ReflTransGen VmaStep (mmCreate 0 0) twoMm := by
  have hins : (insertVma highMm ⟨2, 0x200000, 0x300000, 1⟩).run bareVm = .ok twoMm bareVm := rfl
  exact .tail highMm_run (.insert _ hins)

theorem vmaSteps_separate_sample : twoMm.mmapList.length = 2 ∧
    ∃ v ∈ twoMm.mmapList, (findVma twoMm 0x2FFFFF).1 = some v ∧ v.Holds 0x2FFFFF ∧
      ∀ w ∈ twoMm.mmapList, w.Holds 0x2FFFFF → w = v := by
  refine ⟨rfl, ?_⟩
  obtain ⟨-, -, -, -, -, -, hfind⟩ := vmaSteps_separate twoMm_run
  rcases hfind 0x2FFFFF with ⟨-, hnone⟩ | hsome
  · exact absurd (by decide) (hnone _ List.mem_cons_self)
  · exact hsome

end Runs

/-! ## Mapping a range -/

section MmMap

variable {give : ℕ → Bool} {mm mm' : Mm} {t t' : Vm} {addr len start stop : ℕ} {vmFlags : BitVec 32}

theorem roundDown_eq (a : ℕ) : roundDown a = a / 4096 * 4096 := by
  rw [roundDown, pgSize]
  omega

/-- The end of the range, rounded up. -/
def mapEnd (addr len : ℕ) : ℕ := (addr + len + 4095) / 4096 * 4096

/-- A range that does not wrap around has the end that the source computes, or one that is out of
reach. -/
theorem mapEnd_eq (haddr : addr + len < wordSize)
    (hacc : UserAccess start (roundUp ((addr + len) % wordSize))) :
    roundUp ((addr + len) % wordSize) = mapEnd addr len := by
  rw [wordSize] at haddr
  have hpos : userBase < roundUp ((addr + len) % wordSize) := hacc.1.trans_lt hacc.2.1
  rw [userBase, roundUp, roundDown_eq, pgSize, wordSize, Nat.mod_eq_of_lt haddr] at hpos
  rw [mapEnd, roundUp, roundDown_eq, pgSize, wordSize, Nat.mod_eq_of_lt haddr]
  omega

/-- Likewise, from the end that is meant. -/
theorem roundUp_eq_mapEnd (hacc : UserAccess start (mapEnd addr len)) :
    roundUp ((addr + len) % wordSize) = mapEnd addr len := by
  have htop := hacc.2.2
  rw [userTop, mapEnd] at htop
  have hsum : addr + len < 2 ^ 64 := by omega
  have hsum' : addr + len + (4096 - 1) < 2 ^ 64 := by omega
  rw [mapEnd, roundUp, roundDown_eq, pgSize, wordSize, Nat.mod_eq_of_lt hsum,
    Nat.mod_eq_of_lt hsum']

theorem vmaCreate_of_give (hgive : give t.asked = true) :
    ∃ t', (vmaCreate give start stop vmFlags).run t =
      .ok (some ⟨t.asked, start, stop, vmFlags⟩) t' := by
  refine ⟨{ t with asked := t.asked + 1, live := insert t.asked t.live }, ?_⟩
  rw [vmaCreate, kmalloc]
  simp only [run_bind, run_get, run_modify, if_pos hgive, run_pure, Option.map_some]

theorem vmaCreate_of_not_give (hgive : give t.asked = false) :
    ∃ t', (vmaCreate give start stop vmFlags).run t = .ok none t' := by
  refine ⟨{ t with asked := t.asked + 1 }, ?_⟩
  have hno : ¬give t.asked = true := by
    rw [hgive]
    exact Bool.false_ne_true
  rw [vmaCreate, kmalloc]
  simp only [run_bind, run_get, run_modify, if_neg hno, run_pure, Option.map_none]

/-- The part from `vma_create` on does not return `-E_INVAL`. -/
theorem mmMapNew_ne_inval :
    (mmMapNew give mm start stop vmFlags).run t ≠ .ok (.error .inval, mm') t' := by
  intro hrun
  obtain ⟨vma, t₁, hcreate, -⟩ := vmaCreate_run give start stop vmFlags t
  rw [mmMapNew, bind_of_ok hcreate] at hrun
  cases vma with
  | none => cases hrun
  | some v =>
    dsimp only at hrun
    cases hins : (insertVma mm v).run t₁ with
    | ok m t₂ =>
      rw [bind_of_ok hins, run_pure] at hrun
      cases hrun
    | error e t₂ =>
      rw [bind_of_error hins] at hrun
      cases hrun
    | panic =>
      rw [bind_of_panic hins] at hrun
      cases hrun

/-- What `mm_map` is to do with the range from `start` to `stop`, when its first request for memory
is granted and when it is not. -/
structure MapExact (give : ℕ → Bool) (mm : Mm) (start stop : ℕ) (vmFlags : BitVec 32) (t : Vm)
    (o : Outcome Errno Vm (Except Errno Vma × Mm)) : Prop where
  /-- A range that is not one of user memory, or that meets an area, is refused, and no more than
  the cache is written. -/
  refused : ¬UserAccess start stop ∨ (∃ v ∈ mm.mmapList, v.vmStart < stop ∧ start < v.vmEnd) →
    ∃ mm', o = .ok (.error .inval, mm') t ∧ mm'.toMmStruct = mm.toMmStruct ∧
      mm'.mapCount = mm.mapCount
  /-- Any other gets an area. -/
  mapped : UserAccess start stop → (∀ v ∈ mm.mmapList, stop ≤ v.vmStart ∨ v.vmEnd ≤ start) →
    give t.asked = true → ∃ v mm' t', o = .ok (.ok v, mm') t' ∧ v.vmStart = start ∧
      v.vmEnd = stop ∧ v.vmFlags = vmFlags ∧ mm'.mapCount = mm.mapCount + 1 ∧
      ∀ w, w ∈ mm'.mmapList ↔ w = v ∨ w ∈ mm.mmapList
  /-- Or there is no memory for one. -/
  noMem : UserAccess start stop → (∀ v ∈ mm.mmapList, stop ≤ v.vmStart ∨ v.vmEnd ≤ start) →
    give t.asked = false → ∃ mm' t', o = .ok (.error .noMem, mm') t' ∧
      mm'.toMmStruct = mm.toMmStruct

/-- A range that meets no area gets one. -/
theorem mmMapNew_of_give (h : mm.Wf) (hlt : start < stop)
    (hfree : ∀ v ∈ mm.mmapList, stop ≤ v.vmStart ∨ v.vmEnd ≤ start) (hgive : give t.asked = true) :
    ∃ v mm' t', (mmMapNew give mm start stop vmFlags).run t = .ok (.ok v, mm') t' ∧
      v.vmStart = start ∧ v.vmEnd = stop ∧ v.vmFlags = vmFlags ∧ mm'.mapCount = mm.mapCount + 1 ∧
      ∀ w, w ∈ mm'.mmapList ↔ w = v ∨ w ∈ mm.mmapList := by
  obtain ⟨t₁, hcreate⟩ := @vmaCreate_of_give give t start stop vmFlags hgive
  have hf : Fits Vma.vmStart Vma.vmEnd ⟨t.asked, start, stop, vmFlags⟩ mm.mmapList :=
    h.separate.fits hlt fun w hw ↦ (hfree w hw).symm
  have hins := insertVma_of_fits h hf t₁
  refine ⟨⟨t.asked, start, stop, vmFlags⟩,
    { mm with
      mmapList := upTo Vma.vmStart start mm.mmapList ++
        ⟨t.asked, start, stop, vmFlags⟩ :: past Vma.vmStart start mm.mmapList
      mapCount := mm.mapCount + 1 }, t₁, ?_, rfl, rfl, rfl, rfl, fun w ↦ mem_splice⟩
  rw [mmMapNew, bind_of_ok hcreate]
  exact bind_of_ok hins _

theorem mmMapNew_of_not_give (hgive : give t.asked = false) :
    ∃ t', (mmMapNew give mm start stop vmFlags).run t = .ok (.error .noMem, mm) t' := by
  obtain ⟨t₁, hcreate⟩ := @vmaCreate_of_not_give give t start stop vmFlags hgive
  exact ⟨t₁, by rw [mmMapNew, bind_of_ok hcreate, run_pure]⟩

/-- A range that is no user range is refused, also when rounding up has taken it past the top. -/
theorem mmMap_refused (vmFlags : BitVec 32) (give : ℕ → Bool) (t : Vm)
    (hacc : ¬UserAccess (roundDown addr) (roundUp ((addr + len) % wordSize))) :
    MapExact give mm (roundDown addr) (mapEnd addr len) vmFlags t
      ((mmMap give mm addr len vmFlags).run t) := by
  have hrun : (mmMap give mm addr len vmFlags).run t = .ok (.error .inval, mm) t := by
    rw [mmMap, if_neg hacc, run_pure]
  have hbad : ¬UserAccess (roundDown addr) (mapEnd addr len) := fun hgood ↦
    hacc (by rwa [roundUp_eq_mapEnd hgood])
  refine ⟨fun _ ↦ ⟨mm, hrun, rfl, rfl⟩, ?_, ?_⟩
  · exact fun hgood ↦ absurd hgood hbad
  · exact fun hgood ↦ absurd hgood hbad

/-- When an area holds the start, the range is refused as it should be. -/
theorem mmMap_held {v : Vma} (vmFlags : BitVec 32) (give : ℕ → Bool) (t : Vm)
    (hacc : UserAccess (roundDown addr) (roundUp ((addr + len) % wordSize)))
    (hv : v ∈ mm.mmapList) (hholds : v.Holds (roundDown addr))
    (hfind : findVma mm (roundDown addr) = (some v, { mm with mmapCache := some v })) :
    MapExact give mm (roundDown addr) (mapEnd addr len) vmFlags t
      ((mmMap give mm addr len vmFlags).run t) := by
  have hrun : (mmMap give mm addr len vmFlags).run t =
      .ok (.error .inval, { mm with mmapCache := some v }) t := by
    rw [mmMap, if_pos hacc, hfind]
    dsimp only
    rw [if_pos (hholds.1.trans_lt hacc.2.1), run_pure]
  have hmeets : UserAccess (roundDown addr) (mapEnd addr len) →
      ¬∀ v ∈ mm.mmapList, mapEnd addr len ≤ v.vmStart ∨ v.vmEnd ≤ roundDown addr := by
    intro hgood hfree
    rcases hfree v hv with hle | hle
    · exact absurd (hholds.1.trans_lt hgood.2.1) hle.not_gt
    · exact absurd hholds.2 hle.not_gt
  refine ⟨fun _ ↦ ⟨_, hrun, rfl, rfl⟩, ?_, ?_⟩
  · exact fun hgood hfree ↦ absurd hfree (hmeets hgood)
  · exact fun hgood hfree ↦ absurd hfree (hmeets hgood)

/-- When no area holds the start, the source goes on to insert a new one. -/
theorem mmMap_new (h : mm.Wf) (vmFlags : BitVec 32) (give : ℕ → Bool) (t : Vm)
    (hacc : UserAccess (roundDown addr) (roundUp ((addr + len) % wordSize)))
    (hnone : ∀ v ∈ mm.mmapList, ¬v.Holds (roundDown addr)) (hwrap : addr + len < wordSize)
    (hbegin : ∀ v ∈ mm.mmapList, roundDown addr < v.vmStart → mapEnd addr len ≤ v.vmStart) :
    MapExact give mm (roundDown addr) (mapEnd addr len) vmFlags t
      ((mmMapNew give mm (roundDown addr) (roundUp ((addr + len) % wordSize)) vmFlags).run t) := by
  have hend := mapEnd_eq hwrap hacc
  rw [hend] at hacc ⊢
  have hfree : ∀ v ∈ mm.mmapList, mapEnd addr len ≤ v.vmStart ∨ v.vmEnd ≤ roundDown addr := by
    intro v hv
    rcases lt_or_ge (roundDown addr) v.vmStart with hlt | hge
    · exact .inl (hbegin v hv hlt)
    · exact .inr (not_lt.mp fun hlt ↦ hnone v hv ⟨hge, hlt⟩)
  refine ⟨fun hbad ↦ ?_, fun _ _ hgive ↦ mmMapNew_of_give h hacc.2.1 hfree hgive,
    fun _ _ hgive ↦ ?_⟩
  · rcases hbad with hbad | ⟨v, hv, hlt, hlt'⟩
    · exact absurd hacc hbad
    · rcases hfree v hv with hle | hle
      · exact absurd hlt hle.not_gt
      · exact absurd hlt' hle.not_gt
  · obtain ⟨t', hnew⟩ := @mmMapNew_of_not_give give mm t _ _ vmFlags hgive
    exact ⟨mm, t', hnew, rfl⟩

/-- A new area is only right in a range that does not wrap round and meets no area. -/
theorem free_of_mapExact (h : mm.Wf) {start stop : ℕ} {vmFlags : BitVec 32} {give : ℕ → Bool}
    {t : Vm} (hexact : MapExact give mm (roundDown addr) (mapEnd addr len) vmFlags t
      ((mmMapNew give mm start stop vmFlags).run t)) :
    addr + len < wordSize ∧
      ∀ v ∈ mm.mmapList, roundDown addr < v.vmStart → mapEnd addr len ≤ v.vmStart := by
  have hgood : ¬(¬UserAccess (roundDown addr) (mapEnd addr len) ∨
      ∃ v ∈ mm.mmapList, v.vmStart < mapEnd addr len ∧ roundDown addr < v.vmEnd) := fun hbad ↦ by
    obtain ⟨mm', hinval, -⟩ := hexact.refused hbad
    exact mmMapNew_ne_inval hinval
  rw [not_or, not_not] at hgood
  constructor
  · have htop := hgood.1.2.2
    rw [mapEnd, userTop] at htop
    rw [wordSize]
    omega
  · intro v hv hlt
    by_contra hle
    exact hgood.2 ⟨v, hv, not_le.mp hle, hlt.trans (h.separate.nonempty v hv)⟩

/-- `mm_map` does what it is to do exactly when the range that it computes is refused, or an area
holds its start, or the sum of address and length does not wrap around and no area begins inside the
range: `find_vma` looks at the start only. -/
theorem mmMap_exact_iff (h : mm.Wf) (addr len : ℕ) (vmFlags : BitVec 32) (give : ℕ → Bool)
    (t : Vm) :
    MapExact give mm (roundDown addr) (mapEnd addr len) vmFlags t
        ((mmMap give mm addr len vmFlags).run t) ↔
      ¬UserAccess (roundDown addr) (roundUp ((addr + len) % wordSize)) ∨
        (∃ v ∈ mm.mmapList, v.Holds (roundDown addr)) ∨
        (addr + len < wordSize ∧ ∀ v ∈ mm.mmapList, roundDown addr < v.vmStart →
          mapEnd addr len ≤ v.vmStart) := by
  by_cases hacc : UserAccess (roundDown addr) (roundUp ((addr + len) % wordSize))
  swap
  · exact iff_of_true (mmMap_refused vmFlags give t hacc) (.inl hacc)
  rcases findVma_cases h (roundDown addr) with ⟨v, hv, hholds, hfind⟩ | ⟨hnone, hfind⟩
  · exact iff_of_true (mmMap_held vmFlags give t hacc hv hholds hfind) (.inr (.inl ⟨v, hv, hholds⟩))
  have hrun : (mmMap give mm addr len vmFlags).run t =
      (mmMapNew give mm (roundDown addr) (roundUp ((addr + len) % wordSize)) vmFlags).run t := by
    rw [mmMap, if_pos hacc, hfind]
  rw [hrun]
  constructor
  · exact fun hexact ↦ .inr (.inr (free_of_mapExact h hexact))
  · rintro (hno | ⟨v, hv, hholds⟩ | ⟨hwrap, hbegin⟩)
    · exact absurd hacc hno
    · exact absurd hholds (hnone v hv)
    · exact mmMap_new h vmFlags give t hacc hnone hwrap hbegin

theorem mmMap_exact_iff_sample : MapExact (fun _ ↦ true) highMm (roundDown 0x2FF001)
    (mapEnd 0x2FF001 1) 0 bareVm ((mmMap (fun _ ↦ true) highMm 0x2FF001 1 0).run bareVm) := by
  have hwf := wf_of_vmaSteps highMm_run
  refine (mmMap_exact_iff hwf 0x2FF001 1 0 (fun _ ↦ true) bareVm).mpr (.inr (.inr ⟨by decide, ?_⟩))
  intro v hv _
  obtain rfl := List.mem_singleton.mp hv
  decide

/-- An area that begins inside the range is met by an assertion, with an address space that a run
comes to. -/
theorem mmMap_not_exact_sample : ∃ mm : Mm, Relation.ReflTransGen VmaStep (mmCreate 0 0) mm ∧
    (mmMap (fun _ ↦ true) mm 0x200000 0x101000 0).run bareVm = .panic ∧
    ¬MapExact (fun _ ↦ true) mm (roundDown 0x200000) (mapEnd 0x200000 0x101000) 0 bareVm
      ((mmMap (fun _ ↦ true) mm 0x200000 0x101000 0).run bareVm) := by
  have hpanic : (mmMap (fun _ ↦ true) highMm 0x200000 0x101000 0).run bareVm = .panic := rfl
  refine ⟨highMm, highMm_run, hpanic, fun hexact ↦ ?_⟩
  obtain ⟨mm', hrun, -⟩ := hexact.refused (.inr ⟨_, List.mem_cons_self, by decide, by decide⟩)
  rw [hpanic] at hrun
  cases hrun

end MmMap

/-! ## Checking user memory -/

section Check

variable {mm : Mm} {start stop fuel addr len b : ℕ} {write : Bool}

/-- Byte `b` lies in an area with the permission that is needed, and for a write not in the first
page of a stack. -/
def Mm.Allows (mm : Mm) (write : Bool) (b : ℕ) : Prop :=
  ∃ v ∈ mm.mmapList, v.Holds b ∧ v.vmFlags &&& (if write then vmWrite else vmRead) ≠ 0 ∧
    (write = true → v.vmFlags &&& vmStack ≠ 0 → v.vmStart + pgSize ≤ b)

/-- The loop of `user_mem_check` goes from the end of an area to the next. -/
theorem userMemLoop_iff (h : mm.Wf) (htop : stop ≤ userTop) (hfuel : stop - start < fuel) :
    ∃ r mm', userMemLoop write stop fuel start mm = some (r, mm') ∧
      mm'.toMmStruct = mm.toMmStruct ∧
      (r = true ↔ ∀ b, start ≤ b → b < stop → mm.Allows write b) := by
  induction fuel generalizing start mm with
  | zero => exact absurd hfuel (Nat.not_lt_zero _)
  | succ fuel ih =>
    rw [userMemLoop]
    by_cases hlt : start < stop
    swap
    · rw [if_neg hlt]
      exact ⟨true, mm, rfl, rfl, fun _ b hb hb' ↦ absurd (hb.trans_lt hb') hlt, fun _ ↦ rfl⟩
    rw [if_pos hlt]
    rcases findVma_cases h start with ⟨v, hv, hholds, hfind⟩ | ⟨hnone, hfind⟩
    · rw [hfind]
      dsimp only
      have hword : (v.vmStart + pgSize) % wordSize = v.vmStart + pgSize := by
        have hle := hholds.1
        rw [userTop] at htop
        rw [wordSize, pgSize]
        omega
      rw [if_neg hholds.1.not_gt]
      by_cases href : v.Refuses write start
      · -- the area that holds `start` is the only one that does
        rw [if_pos href]
        refine ⟨false, _, rfl, rfl, fun hc ↦ absurd hc Bool.false_ne_true, fun hall ↦ ?_⟩
        obtain ⟨w, hw, hwb, hflag, hstack⟩ := hall start le_rfl hlt
        obtain rfl := h.eq_of_holds hv hw hholds hwb
        rcases href with href | ⟨hwrite, hst, hpage⟩
        · exact absurd href hflag
        · rw [hword] at hpage
          exact absurd (hstack hwrite hst) hpage.not_ge
      · rw [if_neg href]
        have hnext : stop - v.vmEnd < fuel := by
          have := hholds.2
          omega
        obtain ⟨r, mm', hrun, hmm', hiff⟩ := ih (h.setCache hv) hnext
        refine ⟨r, mm', hrun, hmm', hiff.trans ⟨fun hrest b hb hb' ↦ ?_, fun hall b hb hb' ↦ ?_⟩⟩
        · rcases lt_or_ge b v.vmEnd with hin | hout
          · rw [Vma.Refuses, not_or, hword] at href
            refine ⟨v, hv, ⟨hholds.1.trans hb, hin⟩, href.1, fun hwrite hst ↦ ?_⟩
            exact (not_lt.mp fun hpage ↦ href.2 ⟨hwrite, hst, hpage⟩).trans hb
          · exact hrest b hout hb'
        · exact hall b (hholds.2.le.trans hb) hb'
    · rw [hfind]
      refine ⟨false, mm, rfl, rfl, fun hc ↦ absurd hc Bool.false_ne_true, fun hall ↦ ?_⟩
      obtain ⟨w, hw, hwb, -⟩ := hall start le_rfl hlt
      exact absurd hwb (hnone w hw)

/-- **`user_mem_check` is exact**, and ends within as many rounds as there are bytes to check. -/
theorem userMemCheck_iff (h : mm.Wf) (haddr : addr < wordSize) (hlen : len < wordSize)
    (write : Bool) (hfuel : len < fuel) :
    ∃ r mm', userMemCheck fuel (some mm) addr len write = some (r, some mm') ∧
      mm'.toMmStruct = mm.toMmStruct ∧
      (r = true ↔ 0 < len ∧ addr + len < wordSize ∧ userBase ≤ addr ∧ addr + len ≤ userTop ∧
        ∀ b, addr ≤ b → b < addr + len → mm.Allows write b) := by
  have hwrap : addr + len < wordSize → (addr + len) % wordSize = addr + len := Nat.mod_eq_of_lt
  rw [userMemCheck]
  by_cases hacc : UserAccess addr ((addr + len) % wordSize)
  · have hsum : (addr + len) % wordSize = addr + len := by
      obtain ⟨-, hlt, -⟩ := hacc
      rw [wordSize] at *
      omega
    rw [if_pos hacc]
    rw [hsum] at hacc ⊢
    have hrounds : addr + len - addr < fuel := by rwa [Nat.add_sub_cancel_left]
    obtain ⟨r, mm', hrun, hmm', hiff⟩ :=
      @userMemLoop_iff mm addr _ fuel write h hacc.2.2 hrounds
    refine ⟨r, mm', ?_, hmm', hiff.trans ⟨fun hall ↦ ⟨?_, ?_, hacc.1, hacc.2.2, hall⟩,
      fun hall ↦ hall.2.2.2.2⟩⟩
    · rw [hrun, Option.map_some]
    · have := hacc.2.1
      omega
    · have htop := hacc.2.2
      rw [userTop] at htop
      rw [wordSize]
      omega
  · rw [if_neg hacc]
    refine ⟨false, mm, rfl, rfl, fun hc ↦ absurd hc Bool.false_ne_true, ?_⟩
    rintro ⟨hpos, hsum, hbase, htop, -⟩
    refine absurd ⟨hbase, ?_, ?_⟩ hacc
    · rw [hwrap hsum]
      omega
    · rwa [hwrap hsum]

theorem userMemCheck_iff_sample :
    ∃ mm', userMemCheck 0x1001 (some twoMm) 0x2FFF00 0x1000 false = some (true, some mm') := by
  have hwf := wf_of_vmaSteps twoMm_run
  have haddr : 0x2FFF00 < wordSize := by decide
  have hlen : 0x1000 < wordSize := by decide
  obtain ⟨r, mm', hrun, -, hiff⟩ :=
    @userMemCheck_iff twoMm 0x1001 0x2FFF00 0x1000 hwf haddr hlen false (Nat.lt_succ_self _)
  refine ⟨mm', ?_⟩
  rw [hrun, hiff.mpr ⟨by decide, by decide, by decide, by decide, fun b hb hb' ↦ ?_⟩]
  rcases lt_or_ge b 0x300000 with hlow | hhigh
  · exact ⟨_, List.mem_cons_self, ⟨le_trans (by decide) hb, hlow⟩, by decide,
      fun hc ↦ absurd hc Bool.false_ne_true⟩
  · exact ⟨_, List.mem_cons_of_mem _ List.mem_cons_self, ⟨hhigh, hb'.trans (by decide)⟩, by decide,
      fun hc ↦ absurd hc Bool.false_ne_true⟩

end Check

end Ucore.AddrSpace
