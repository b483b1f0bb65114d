import Ucore.Proc.ExitRuns

/-!
# What a failed fork leaves behind

`do_fork` fails in one of two places: in front of `get_pid`, when the process table is full or there
is no memory for the structure, the kernel stack or the copy of the address space; or in
`copy_files`, behind `wakeup_proc`, when there is none for the open-file table.

A failure of the first kind is undone (`doFork_untouched`). The structure was known to nobody yet
(`Kernel.Private`), so that nothing has to be unlinked, and what is given back is what was taken,
apart from two kinds of pages. The arena of `kmalloc` keeps the pages it grew by, and `exit_mmap`
may keep some of those that `dup_mmap` took before it failed. `Kernel.forkLoss` says which pages
these are.

A failure of the second kind is no failure to the caller. The error path frees the structure, which
is in the process list and in the run queue by then, and the call returns its number
(`doFork_filesFail`).
-/

namespace Ucore

open Prog Kernel

/-- What `do_fork` relies on when the process on the processor calls it. -/
structure Kernel.CanFork (s : Kernel) : Prop where
  waitState : (s.proc s.current).waitState = 0
  filesp : (s.proc s.current).filesp ≠ none
  current_live : s.current ∈ s.live
  listed : ∀ p ∈ s.procList, p ∈ s.live
  pids : PidState.Ok ⟨s.lastPid, s.nextSafe, s.procList.map fun q ↦ (s.proc q).pid⟩

/-- What the allocators promise: memory that is not in use, and pages that are free. -/
structure ForkMem.Fits (mem : ForkMem) (s : Kernel) : Prop where
  proc : ∀ p, mem.proc.addr = some p → p ∉ s.live
  mm : ∀ m, mem.mm.addr = some m → m ∉ s.mem.mmLive
  grownProc : mem.proc.grown ⊆ s.mem.freePages
  kstack : ∀ page, mem.kstack = some page →
    kstackPages page ⊆ s.mem.freePages \ mem.proc.grown
  grownMm : ∀ page, mem.kstack = some page →
    mem.mm.grown ⊆ s.mem.freePages \ (kstackPages page ∪ mem.proc.grown)
  dup : ∀ page d, mem.kstack = some page → mem.pgdir = some d →
    insert d (mem.dupPages ∪ mem.dupLost) ⊆
      s.mem.freePages \ (kstackPages page ∪ (mem.proc.grown ∪ mem.mm.grown))
  dupLost : ∀ d, mem.pgdir = some d → Disjoint (insert d mem.dupPages) mem.dupLost

/-- Nothing in `t` tells that there was a call of `do_fork` since `s`, except that the pages of
`lost` are not free any more. -/
structure Kernel.Untouched (lost : Finset ℕ) (s t : Kernel) : Prop where
  rq : t.rq = s.rq
  procList : t.procList = s.procList
  hashList : t.hashList = s.hashList
  nrProcess : t.nrProcess = s.nrProcess
  /-- The process structures in use are the same, with the lists of children. -/
  live : t.live = s.live
  proc : ∀ q ∈ s.live, t.proc q = s.proc q
  mmLive : t.mem.mmLive = s.mem.mmLive
  mm : ∀ m ∈ s.mem.mmLive, t.mem.mm m = s.mem.mm m
  filesLive : t.mem.filesLive = s.mem.filesLive
  files : t.mem.files = s.mem.files
  freePages : t.mem.freePages = s.mem.freePages \ lost

/-- A call of `do_fork` has left no trace. -/
def Kernel.NoTrace (s t : Kernel) : Prop := s.Untouched ∅ t

/-- The pages that a call of `do_fork` does not give back when it fails before `get_pid`; `none` if
it gets there. -/
def Kernel.forkLoss (s : Kernel) (flags : BitVec 32) (mem : ForkMem) : Option (Finset ℕ) :=
  if maxProcess ≤ s.nrProcess then some ∅
  else if mem.proc.addr = none ∨ mem.kstack = none then some mem.proc.grown
  else if (s.proc s.current).mm = none ∨ flags &&& cloneVm ≠ 0 then none
  else if mem.mm.addr = none ∨ mem.pgdir = none then some (mem.proc.grown ∪ mem.mm.grown)
  else if mem.dup then none
  else some (mem.proc.grown ∪ mem.mm.grown ∪ mem.dupLost)

/-- `copy_files` fails. -/
def ForkMem.FilesFail (flags : BitVec 32) (mem : ForkMem) : Prop :=
  flags &&& cloneFs = 0 ∧ mem.files.addr = none

/-! ## The process structure is not published -/

/-- In `t` there is a new process `p` that nobody knows of yet. -/
structure Kernel.Unlinked (s t : Kernel) (p : ℕ) : Prop where
  current : t.current = s.current
  procList : t.procList = s.procList
  nrProcess : t.nrProcess = s.nrProcess
  lastPid : t.lastPid = s.lastPid
  nextSafe : t.nextSafe = s.nextSafe
  proc : ∀ q ≠ p, t.proc q = s.proc q
  parent : (t.proc p).parent = some s.current
  state : (t.proc p).state = .uninit

/-- It has a kernel stack at `page` and no address space, and the pages of `lost` are lost. -/
structure Kernel.Private (s t : Kernel) (p page : ℕ) (lost : Finset ℕ) : Prop
    extends s.Unlinked t p where
  rq : t.rq = s.rq
  hashList : t.hashList = s.hashList
  live : t.live = insert p s.live
  kstack : (t.proc p).kstack = some page
  mmLive : t.mem.mmLive = s.mem.mmLive
  mm : ∀ m ∈ s.mem.mmLive, t.mem.mm m = s.mem.mm m
  filesLive : t.mem.filesLive = s.mem.filesLive
  files : t.mem.files = s.mem.files
  freePages : t.mem.freePages = s.mem.freePages \ (kstackPages page ∪ lost)

variable {s t u : Kernel} {p page m d : ℕ} {lost : Finset ℕ} {flags : BitVec 32} {mem : ForkMem}

/-- `alloc_proc` and `setup_kstack`. -/
theorem forkAlloc_run (hs : s.CanFork) (hmem : mem.Fits s) (hmax : ¬maxProcess ≤ s.nrProcess)
    (hp : mem.proc.addr = some p) (hpage : mem.kstack = some page) :
    ∃ t, (forkAlloc mem).run s = .ok p t ∧ s.Private t p page mem.proc.grown := by
  have hne : s.current ≠ p := by
    intro heq
    exact hmem.proc p hp (heq ▸ hs.current_live)
  set t₁ : Kernel := (s.growArena mem.proc).embryo p with ht₁
  set t₂ : Kernel := (t₁.takePages (kstackPages page)).setProc p fun q ↦
    { q with kstack := some page } with ht₂
  have hproc : ∀ q, q ≠ p → t₂.proc q = s.proc q := by
    intro q hq
    rw [ht₂, setProc_of_ne _ hq]
    exact embryo_proc_of_ne _ hq
  have hself : t₂.proc p = { Proc.blank with parent := some s.current, kstack := some page } := by
    have hembryo : (t₁.takePages (kstackPages page)).proc p =
        { Proc.blank with parent := some s.current } := embryo_proc_self _ p
    rw [ht₂, setProc_self, hembryo]
  have hwait : (t₁.proc t₁.current).waitState = 0 := by
    have hcur : t₁.proc t₁.current = s.proc s.current := embryo_proc_of_ne _ hne
    rw [hcur]
    exact hs.waitState
  refine ⟨t₂, ?_, ⟨⟨rfl, rfl, rfl, rfl, rfl, hproc, ?_, ?_⟩, rfl, rfl, rfl, ?_, rfl, fun _ _ ↦ rfl,
    rfl, rfl, ?_⟩⟩
  · rw [forkAlloc, get_bind_run, if_neg hmax, modify_bind_run, hp]
    dsimp only
    rw [modify_bind_run, get_bind_run, assert_bind_run, hpage]
    · rfl
    · exact hwait
  · rw [hself]
  · rw [hself]
    rfl
  · rw [hself]
  · change (s.mem.freePages \ mem.proc.grown) \ kstackPages page = _
    rw [sdiff_sdiff, Finset.sup_eq_union, Finset.union_comm]

/-- The error path from `bad_fork_cleanup_kstack` on. -/
theorem Kernel.Private.cleanup (h : s.Private t p page lost) (hp : p ∉ s.live)
    (hpages : kstackPages page ⊆ s.mem.freePages \ lost) :
    s.Untouched lost ((t.putKstack p).kfreeProc p) := by
  have hput : t.putKstack p = t.givePages (kstackPages page) := by
    rw [putKstack, h.kstack]
  rw [hput]
  refine ⟨h.rq, h.procList, h.hashList, h.nrProcess, ?_, fun q hq ↦ h.proc q ?_, h.mmLive, h.mm,
    h.filesLive, h.files, ?_⟩
  · change t.live.erase p = s.live
    rw [h.live, Finset.erase_insert hp]
  · rintro rfl
    exact hp hq
  · change t.mem.freePages ∪ kstackPages page = _
    rw [h.freePages]
    ext x
    have hx := @hpages x
    simp only [Finset.mem_union, Finset.mem_sdiff] at hx ⊢
    tauto

theorem Kernel.Unlinked.setMem (h : s.Unlinked t p) (f : Memory → Memory) :
    s.Unlinked (t.setMem f) p :=
  ⟨h.current, h.procList, h.nrProcess, h.lastPid, h.nextSafe, h.proc, h.parent, h.state⟩

/-- The memory changes, and no address space or open-file table in use does. -/
theorem Kernel.Private.setMem {lost' : Finset ℕ} (h : s.Private t p page lost) (f : Memory → Memory)
    (hmmLive : (f t.mem).mmLive = t.mem.mmLive)
    (hmm : ∀ m ∈ s.mem.mmLive, (f t.mem).mm m = t.mem.mm m)
    (hfilesLive : (f t.mem).filesLive = t.mem.filesLive) (hfiles : (f t.mem).files = t.mem.files)
    (hfree : (f t.mem).freePages = s.mem.freePages \ (kstackPages page ∪ lost')) :
    s.Private (t.setMem f) p page lost' where
  toUnlinked := h.toUnlinked.setMem f
  rq := h.rq
  hashList := h.hashList
  live := h.live
  kstack := h.kstack
  mmLive := hmmLive.trans h.mmLive
  mm m hm := (hmm m hm).trans (h.mm m hm)
  filesLive := hfilesLive.trans h.filesLive
  files := hfiles.trans h.files
  freePages := hfree

theorem Kernel.Private.growArena (h : s.Private t p page lost) (k : Kmalloc) :
    s.Private (t.growArena k) p page (lost ∪ k.grown) := by
  refine h.setMem _ rfl (fun _ _ ↦ rfl) rfl rfl ?_
  dsimp only
  rw [h.freePages, sdiff_sdiff, Finset.sup_eq_union, Finset.union_assoc]

theorem Kernel.mmPages_mm (t : Kernel) (m d : ℕ) (pages pages' : Finset ℕ) :
    ((t.mmCreate m d).mmPages m pages pages').mem.mm m = ⟨0, d, pages⟩ := by
  have hcreate : (t.mmCreate m d).mem.mm m = ⟨0, d, ∅⟩ := Function.update_self ..
  have hpages : ((t.mmCreate m d).mmPages m pages pages').mem.mm m =
      { (t.mmCreate m d).mem.mm m with pages := ((t.mmCreate m d).mem.mm m).pages ∪ pages } :=
    Function.update_self ..
  rw [hpages, hcreate, Finset.empty_union]

theorem Kernel.setMem_setMem (t : Kernel) (f g : Memory → Memory) :
    (t.setMem f).setMem g = t.setMem fun mem ↦ g (f mem) := rfl

/-- Only the memory changes. -/
theorem Kernel.exists_mmFree (t : Kernel) (m d : ℕ) (pages pages' : Finset ℕ) :
    ∃ f, ((t.mmCreate m d).mmPages m pages pages').mmFree m = t.setMem f := by
  rw [Kernel.mmFree, givePages, mmPages, mmCreate, takePages, takePages, setMem_setMem,
    setMem_setMem, setMem_setMem, setMem_setMem, setMem_setMem]
  exact ⟨_, rfl⟩

/-- Pages are taken, and some of them are given back. -/
theorem sdiff_union_taken {F K L P P' : Finset ℕ} (hsub : insert d (P ∪ P') ⊆ F \ (K ∪ L))
    (hdisj : Disjoint (insert d P) P') :
    (((F \ (K ∪ L)) \ {d}) \ (P ∪ P')) ∪ insert d P = F \ (K ∪ (L ∪ P')) := by
  have hback : insert d P ⊆ (F \ (K ∪ L)) \ P' :=
    Finset.subset_sdiff.mpr ⟨(Finset.insert_subset_insert d Finset.subset_union_left).trans hsub,
    hdisj⟩
  have htaken : ((F \ (K ∪ L)) \ {d}) \ (P ∪ P') = ((F \ (K ∪ L)) \ P') \ insert d P := by
    rw [sdiff_sdiff, sdiff_sdiff (a := F \ (K ∪ L)), Finset.insert_eq]
    congr 1
    ext x
    simp only [Finset.sup_eq_union, Finset.mem_union]
    tauto
  rw [htaken, Finset.sdiff_union_of_subset hback, sdiff_sdiff, Finset.sup_eq_union,
    Finset.union_assoc]

/-- The address space that `dup_mmap` could not fill is taken down again. -/
theorem Kernel.Private.mmFree (h : s.Private t p page lost) (hm : m ∉ s.mem.mmLive)
    {pages pages' : Finset ℕ}
    (hpages : insert d (pages ∪ pages') ⊆ s.mem.freePages \ (kstackPages page ∪ lost))
    (hdisj : Disjoint (insert d pages) pages') :
    s.Private (((t.mmCreate m d).mmPages m pages pages').mmFree m) p page (lost ∪ pages') := by
  obtain ⟨f, hf⟩ := t.exists_mmFree m d pages pages'
  have hmem : f t.mem = (((t.mmCreate m d).mmPages m pages pages').mmFree m).mem :=
    (congrArg Kernel.mem hf).symm
  rw [hf]
  refine h.setMem f ?_ (fun k hk ↦ ?_) ?_ ?_ ?_
  all_goals
    rw [hmem, Kernel.mmFree, mmPages_mm]
  · exact Finset.erase_insert (h.mmLive ▸ hm)
  · have hne : k ≠ m := by
      rintro rfl
      exact hm hk
    exact (Function.update_of_ne hne _ _).trans (Function.update_of_ne hne _ _)
  · rfl
  · rfl
  · rw [← sdiff_union_taken hpages hdisj, ← h.freePages]
    rfl

/-! ## copy_mm -/

theorem Kernel.Unlinked.goodMm (h : s.Unlinked t p) (m : ℕ) : s.Unlinked (t.goodMm p m) p := by
  refine ⟨h.current, h.procList, h.nrProcess, h.lastPid, h.nextSafe, fun q hq ↦ ?_, ?_, ?_⟩
  · rw [Kernel.goodMm, setProc_of_ne _ hq]
    exact h.proc q hq
  · rw [Kernel.goodMm, setProc_self]
    exact h.parent
  · rw [Kernel.goodMm, setProc_self]
    exact h.state

theorem Kernel.Unlinked.current_proc (h : s.Unlinked t p) (hne : s.current ≠ p) :
    t.proc t.current = s.proc s.current := by
  rw [h.current]
  exact h.proc s.current hne

/-- `copy_mm` fails for want of memory, and what it took is given back but for what is lost. -/
theorem copyMm_fails (hmem : mem.Fits s) (h : s.Private t p page mem.proc.grown)
    (hpage : mem.kstack = some page) (hne : s.current ≠ p)
    (hmm : ¬((s.proc s.current).mm = none ∨ flags &&& cloneVm ≠ 0))
    (hfail : (mem.mm.addr = none ∨ mem.pgdir = none) ∧ lost = mem.proc.grown ∪ mem.mm.grown ∨
      ¬(mem.mm.addr = none ∨ mem.pgdir = none) ∧ mem.dup = false ∧
        lost = mem.proc.grown ∪ mem.mm.grown ∪ mem.dupLost) :
    ∃ u, (copyMm flags p mem).run t = .error .noMem u ∧ s.Private u p page lost := by
  rw [not_or, not_not] at hmm
  obtain ⟨old, hold⟩ := Option.ne_none_iff_exists'.mp hmm.1
  have hgrow := h.growArena mem.mm
  rcases hfail with ⟨hnone, rfl⟩ | ⟨hsome, hdup, rfl⟩
  -- `mm_create` or `setup_pgdir` fails.
  · refine ⟨t.growArena mem.mm, ?_, hgrow⟩
    rw [copyMm]
    refine bind_of_error ?_ _
    rw [copyMmAlloc, get_bind_run, h.current_proc hne, hold]
    dsimp only
    rw [if_neg (not_not.mpr hmm.2), modify_bind_run]
    cases haddr : mem.mm.addr with
    | none => rfl
    | some m =>
      rw [hnone.resolve_left (by rw [haddr]; exact Option.some_ne_none m)]
      rfl
  -- `dup_mmap` fails.
  · rw [not_or] at hsome
    obtain ⟨m, haddr⟩ := Option.ne_none_iff_exists'.mp hsome.1
    obtain ⟨d, hdir⟩ := Option.ne_none_iff_exists'.mp hsome.2
    refine ⟨_, ?_, hgrow.mmFree (hmem.mm m haddr) (hmem.dup page d hpage hdir)
      (hmem.dupLost d hdir)⟩
    have hok : (copyMmAlloc flags p mem).run t =
        .ok (.dup m) ((t.growArena mem.mm).mmCreate m d) := by
      rw [copyMmAlloc, get_bind_run, h.current_proc hne, hold]
      dsimp only
      rw [if_neg (not_not.mpr hmm.2), modify_bind_run, haddr, hdir]
      rfl
    rw [copyMm, bind_of_ok hok]
    dsimp only
    rw [dupMmap, modify_bind_run, copyMmGood, hdup, if_neg Bool.false_ne_true, modify_bind_run]
    rfl

/-- `copy_mm` succeeds, and the new process is still unknown. -/
theorem copyMm_succeeds (h : s.Unlinked t p) (hne : s.current ≠ p)
    (hgood : ((s.proc s.current).mm = none ∨ flags &&& cloneVm ≠ 0) ∨
      ¬(mem.mm.addr = none ∨ mem.pgdir = none) ∧ mem.dup = true) :
    ∃ u, (copyMm flags p mem).run t = .ok () u ∧ s.Unlinked u p := by
  cases hold : (s.proc s.current).mm with
  | none =>
    refine ⟨t, ?_, h⟩
    have hdone : (copyMmAlloc flags p mem).run t = .ok .done t := by
      rw [copyMmAlloc, get_bind_run, h.current_proc hne, hold]
      rfl
    rw [copyMm, bind_of_ok hdone]
    rfl
  | some old =>
    by_cases hvm : flags &&& cloneVm ≠ 0
    · refine ⟨t.goodMm p old, ?_, h.goodMm old⟩
      have hdone : (copyMmAlloc flags p mem).run t = .ok .done (t.goodMm p old) := by
        rw [copyMmAlloc, get_bind_run, h.current_proc hne, hold]
        dsimp only
        rw [if_pos hvm]
        rfl
      rw [copyMm, bind_of_ok hdone]
      rfl
    · rw [hold] at hgood
      obtain ⟨hsome, hdup⟩ := hgood.resolve_left fun hor ↦ hor.elim (Option.some_ne_none old) hvm
      rw [not_or] at hsome
      obtain ⟨m, haddr⟩ := Option.ne_none_iff_exists'.mp hsome.1
      obtain ⟨d, hdir⟩ := Option.ne_none_iff_exists'.mp hsome.2
      have hgrow : s.Unlinked (t.growArena mem.mm) p := h.setMem _
      have htake : s.Unlinked ((t.growArena mem.mm).takePages {d}) p := hgrow.setMem _
      have hcreate : s.Unlinked ((t.growArena mem.mm).mmCreate m d) p := htake.setMem _
      have htake' : s.Unlinked (((t.growArena mem.mm).mmCreate m d).takePages
          (mem.dupPages ∪ mem.dupLost)) p := hcreate.setMem _
      have hpages : s.Unlinked
          (((t.growArena mem.mm).mmCreate m d).mmPages m mem.dupPages mem.dupLost) p :=
        htake'.setMem _
      refine ⟨_, ?_, hpages.goodMm m⟩
      have hok : (copyMmAlloc flags p mem).run t =
          .ok (.dup m) ((t.growArena mem.mm).mmCreate m d) := by
        rw [copyMmAlloc, get_bind_run, h.current_proc hne, hold]
        dsimp only
        rw [if_neg hvm, modify_bind_run, haddr, hdir]
        rfl
      rw [copyMm, bind_of_ok hok]
      dsimp only
      rw [dupMmap, modify_bind_run, copyMmGood, hdup, if_pos rfl]
      rfl

/-! ## Behind get_pid -/

section Field

variable {α : Type} {g : Proc → α}

/-- A field that an assignment does not touch. -/
theorem Kernel.setProc_field (s : Kernel) (p : ℕ) {f : Proc → Proc} (hf : ∀ r, g (f r) = g r)
    (q : ℕ) : g ((s.setProc p f).proc q) = g (s.proc q) := by
  rcases eq_or_ne q p with rfl | hne
  · rw [setProc_self, hf]
  · rw [setProc_of_ne _ hne]

/-- A field that is no link is what it was after `set_links`. -/
theorem Kernel.setLinks_field (s : Kernel) (p q : ℕ) (hy : ∀ r v, g { r with yptr := v } = g r)
    (ho : ∀ r v, g { r with optr := v } = g r) (hc : ∀ r v, g { r with cptr := v } = g r) (x : ℕ) :
    g ((s.setLinks p q).proc x) = g (s.proc x) := by
  have hset : ∀ (t : Kernel) (o v : Option ℕ), g ((t.setYptr o v).proc x) = g (t.proc x) := by
    intro t o v
    cases o with
    | none => rfl
    | some o => exact t.setProc_field o (fun r ↦ hy r v) x
  change g ((s.adopt p q).proc x) = _
  rw [adopt]
  rw [setProc_field _ q fun r ↦ hc r _, hset, setProc_field _ p fun r ↦ ho r _,
    setProc_field _ p fun r ↦ hy r _]

theorem Kernel.setLinks_current (s : Kernel) (p q : ℕ) : (s.setLinks p q).current = s.current := by
  have hset : ∀ (t : Kernel) (o v : Option ℕ), (t.setYptr o v).current = t.current := by
    intro t o v
    cases o <;> rfl
  change (s.adopt p q).current = _
  rw [adopt]
  exact hset _ _ _

/-- Nor does `wakeup_proc` change a field other than three. -/
theorem Kernel.wakeup_field (s : Kernel) (p : ℕ)
    (hw : ∀ r st w, g { r with state := st, waitState := w } = g r)
    (ht : ∀ r n, g { r with timeSlice := n } = g r) (x : ℕ) :
    g ((s.wakeup p).proc x) = g (s.proc x) := by
  have hset := s.setProc_field p (fun r ↦ hw r .runnable 0) x
  rw [wakeup]
  split_ifs
  · rw [schedClassEnqueue]
    split_ifs
    · exact hset
    · exact (Kernel.setProc_field _ p (fun r ↦ ht r _) x).trans hset
  · exact hset

end Field

theorem Kernel.wakeup_nrProcess (s : Kernel) (p : ℕ) : (s.wakeup p).nrProcess = s.nrProcess := by
  rw [wakeup]
  split_ifs
  · rw [schedClassEnqueue]
    split_ifs <;> rfl
  · rfl

theorem Kernel.wakeup_procList (s : Kernel) (p : ℕ) : (s.wakeup p).procList = s.procList := by
  rw [wakeup]
  split_ifs
  · rw [schedClassEnqueue]
    split_ifs <;> rfl
  · rfl

theorem Kernel.wakeup_current (s : Kernel) (p : ℕ) : (s.wakeup p).current = s.current := by
  rw [wakeup]
  split_ifs
  · rw [schedClassEnqueue]
    split_ifs <;> rfl
  · rfl

/-- `get_pid`, `hash_proc`, `set_links` and `wakeup_proc` succeed, and there is a process more. -/
theorem forkPublish_run (hs : s.CanFork) (h : s.Unlinked t p) (hp : p ∉ s.live) :
    ∃ u v, (forkLink p).run t = .ok () u ∧ (wakeupProc p).run u = .ok () v ∧
      v.nrProcess = s.nrProcess + 1 ∧ p ∈ v.procList ∧
        (v.proc v.current).filesp = (s.proc s.current).filesp := by
  have hne : s.current ≠ p := by
    rintro rfl
    exact hp hs.current_live
  have hpids : t.procList.map (fun q ↦ (t.proc q).pid) = s.procList.map fun q ↦ (s.proc q).pid := by
    rw [h.procList]
    refine List.map_congr_left fun q hq ↦ ?_
    rw [h.proc q]
    rintro rfl
    exact hp (hs.listed _ hq)
  obtain ⟨r, hr⟩ := hs.pids.getPid_some
  set t₁ : Kernel := ({ t with lastPid := r.lastPid, nextSafe := r.nextSafe }.setProc p fun q ↦
    { q with pid := r.lastPid }).hashProc p with ht₁
  have hlink : (forkLink p).run t = .ok () (t₁.setLinks p s.current) := by
    rw [forkLink, get_bind_run, hpids, h.lastPid, h.nextSafe, hr, h.parent]
    rfl
  have hstate : ((t₁.setLinks p s.current).proc p).state = .uninit := by
    rw [t₁.setLinks_field (g := Proc.state) p s.current (fun _ _ ↦ rfl) (fun _ _ ↦ rfl)
      fun _ _ ↦ rfl]
    have hpid : (t₁.proc p).state = (t.proc p).state :=
      Kernel.setProc_field (f := fun q ↦ { q with pid := r.lastPid }) (g := Proc.state) _ p
        (fun _ ↦ rfl) p
    rw [hpid, h.state]
  have hfilesp : ∀ q, ((t₁.setLinks p s.current).proc q).filesp = (t.proc q).filesp := by
    intro q
    rw [t₁.setLinks_field (g := Proc.filesp) p s.current (fun _ _ ↦ rfl) (fun _ _ ↦ rfl)
      fun _ _ ↦ rfl]
    exact Kernel.setProc_field (f := fun q ↦ { q with pid := r.lastPid }) (g := Proc.filesp) _ p
      (fun _ ↦ rfl) q
  have hwake : (wakeupProc p).run (t₁.setLinks p s.current) =
      .ok () ((t₁.setLinks p s.current).wakeup p) := by
    rw [run_wakeupProc (by rw [hstate]; exact ProcState.noConfusion),
      if_pos (by rw [hstate]; exact ProcState.noConfusion)]
  have hcur : (t₁.setLinks p s.current).current = s.current := by
    rw [setLinks_current]
    exact h.current
  refine ⟨_, _, hlink, hwake, ?_, ?_, ?_⟩
  · rw [wakeup_nrProcess]
    change t.nrProcess + 1 = _
    rw [h.nrProcess]
  · rw [wakeup_procList]
    exact List.mem_cons_self
  · rw [wakeup_current, hcur, Kernel.wakeup_field (g := Proc.filesp) _ p (fun _ _ _ ↦ rfl)
      fun _ _ ↦ rfl, hfilesp, h.proc _ hne]

/-- `copy_files` fails for want of memory, and takes back nothing. -/
theorem copyFiles_fails (hfilesp : (t.proc t.current).filesp ≠ none) (hfail : mem.FilesFail flags) :
    (copyFiles flags p mem).run t = .error .noMem (t.growArena mem.files) := by
  obtain ⟨old, hold⟩ := Option.ne_none_iff_exists'.mp hfilesp
  rw [copyFiles, get_bind_run, hold]
  dsimp only
  rw [if_neg (not_not.mpr hfail.1), modify_bind_run, hfail.2]
  rfl

/-- The end of `do_fork` has no error to return. -/
theorem forkFiles_returns (flags : BitVec 32) (p : ℕ) (mem : ForkMem) (s : Kernel) :
    ((forkFiles flags p mem).run s).Sat (fun _ _ ↦ True) fun _ _ ↦ False := by
  rw [forkFiles]
  cases hrun : (copyFiles flags p mem).run s with
  | ok events t =>
    rw [bind_of_ok (attempt_of_ok hrun)]
    trivial
  | error e t =>
    rw [bind_of_ok (attempt_of_error hrun)]
    trivial
  | panic =>
    rw [bind_of_panic (attempt_of_panic hrun)]
    trivial

/-! ## do_fork -/

/-- Pages that are free and not lost stay so when more are lost that were free besides them. -/
theorem subset_sdiff_union {K F G L : Finset ℕ} (hK : K ⊆ F \ G) (hL : L ⊆ F \ (K ∪ G)) :
    K ⊆ F \ (G ∪ L) := by
  intro x hx
  have hxK := hK hx
  rw [Finset.mem_sdiff] at hxK ⊢
  refine ⟨hxK.1, fun hxL ↦ ?_⟩
  rcases Finset.mem_union.mp hxL with hxG | hxL'
  · exact hxK.2 hxG
  · exact (Finset.mem_sdiff.mp (hL hxL')).2 (Finset.mem_union_left G hx)

/-- A call that fails before `get_pid` undoes what it did, but for the pages that are lost. -/
theorem doFork_fails (hs : s.CanFork) (hmem : mem.Fits s)
    (hloss : s.forkLoss flags mem = some lost) :
    ∃ e t, (doFork flags mem).run s = .error e t ∧ s.Untouched lost t ∧ lost ⊆ s.mem.freePages := by
  rw [forkLoss] at hloss
  split_ifs at hloss with hmax hnone hmm hmm' hdup
  · cases hloss
    refine ⟨.noFreeProc, s, ?_, ⟨rfl, rfl, rfl, rfl, rfl, fun _ _ ↦ rfl, rfl, fun _ _ ↦ rfl, rfl,
      rfl, Finset.sdiff_empty.symm⟩, Finset.empty_subset _⟩
    refine bind_of_error ?_ _
    rw [forkAlloc, get_bind_run, if_pos hmax]
    rfl
  · cases hloss
    refine ⟨.noMem, ?_⟩
    -- either there is no process structure, or no stack for it
    cases hp : mem.proc.addr with
    | none =>
      refine ⟨s.growArena mem.proc, ?_, ⟨rfl, rfl, rfl, rfl, rfl, fun _ _ ↦ rfl, rfl, fun _ _ ↦ rfl,
        rfl, rfl, rfl⟩, hmem.grownProc⟩
      refine bind_of_error ?_ _
      rw [forkAlloc, get_bind_run, if_neg hmax, modify_bind_run, hp]
      rfl
    | some p =>
      have hpage : mem.kstack = none := hnone.resolve_left (by rw [hp]; exact Option.some_ne_none p)
      have hlive := hmem.proc p hp
      have hne : ∀ q ∈ s.live, q ≠ p := by
        rintro q hq rfl
        exact hlive hq
      set t₁ : Kernel := (s.growArena mem.proc).embryo p with ht₁
      have hproc : ∀ q ∈ s.live, t₁.proc q = s.proc q := fun q hq ↦ embryo_proc_of_ne _ (hne q hq)
      have hwait : (t₁.proc t₁.current).waitState = 0 := by
        have hcur : t₁.proc t₁.current = s.proc s.current := hproc _ hs.current_live
        rw [hcur]
        exact hs.waitState
      refine ⟨t₁.kfreeProc p, ?_, ⟨rfl, rfl, rfl, rfl, ?_, hproc, rfl, fun _ _ ↦ rfl, rfl, rfl,
        rfl⟩, hmem.grownProc⟩
      · refine bind_of_error ?_ _
        rw [forkAlloc, get_bind_run, if_neg hmax, modify_bind_run, hp]
        dsimp only
        rw [modify_bind_run, get_bind_run, assert_bind_run, hpage]
        · rfl
        · exact hwait
      · exact Finset.erase_insert hlive
  all_goals
    rw [not_or] at hnone
    obtain ⟨p, hp⟩ := Option.ne_none_iff_exists'.mp hnone.1
    obtain ⟨page, hpage⟩ := Option.ne_none_iff_exists'.mp hnone.2
    obtain ⟨t, halloc, hprivate⟩ := forkAlloc_run hs hmem hmax hp hpage
    have hlive := hmem.proc p hp
    have hne : s.current ≠ p := by
      rintro rfl
      exact hlive hs.current_live
    -- What is left is the end of the error path.
    have hend : ∀ u, (copyMm flags p mem).run t = .error .noMem u → s.Private u p page lost →
        kstackPages page ⊆ s.mem.freePages \ lost →
        ∃ e v, (doFork flags mem).run s = .error e v ∧ s.Untouched lost v := by
      intro u hcopy hu hpages
      refine ⟨.noMem, (u.putKstack p).kfreeProc p, ?_, hu.cleanup hlive hpages⟩
      rw [doFork, bind_of_ok halloc]
      refine bind_of_error ?_ _
      rw [onError_of_error hcopy, badForkCleanupKstack, modify_bind_run]
      rfl
    have hkstack := hmem.kstack page hpage
    have hgrown := hmem.grownMm page hpage
    have hproc := hmem.grownProc
  · cases hloss
    obtain ⟨u, hcopy, hu⟩ := copyMm_fails hmem hprivate hpage hne hmm (.inl ⟨hmm', rfl⟩)
    obtain ⟨e, v, hrun, hv⟩ := hend u hcopy hu (subset_sdiff_union hkstack hgrown)
    exact ⟨e, v, hrun, hv, Finset.union_subset hproc (hgrown.trans Finset.sdiff_subset)⟩
  · cases hloss
    have hdup' : mem.dup = false := Bool.eq_false_iff.mpr hdup
    obtain ⟨u, hcopy, hu⟩ := copyMm_fails hmem hprivate hpage hne hmm (.inr ⟨hmm', hdup', rfl⟩)
    rw [not_or] at hmm'
    obtain ⟨d, hdir⟩ := Option.ne_none_iff_exists'.mp hmm'.2
    have hlost : mem.dupLost ⊆
        s.mem.freePages \ (kstackPages page ∪ (mem.proc.grown ∪ mem.mm.grown)) :=
      (Finset.subset_union_right.trans (Finset.subset_insert d _)).trans
      (hmem.dup page d hpage hdir)
    obtain ⟨e, v, hrun, hv⟩ := hend u hcopy hu
      (subset_sdiff_union (subset_sdiff_union hkstack hgrown) hlost)
    exact ⟨e, v, hrun, hv, Finset.union_subset
      (Finset.union_subset hproc (hgrown.trans Finset.sdiff_subset))
      (hlost.trans Finset.sdiff_subset)⟩

/-- A call that gets to `get_pid` gets to `copy_files`, with a process more. -/
theorem doFork_publishes (hs : s.CanFork) (hmem : mem.Fits s)
    (hloss : s.forkLoss flags mem = none) :
    ∃ p v, (doFork flags mem).run s =
        (do
          let s ← get
          let _ ← forkFiles flags p mem
          return (s.proc p).pid : KProg ℕ).run v ∧
      v.nrProcess = s.nrProcess + 1 ∧ p ∈ v.procList ∧ (v.proc v.current).filesp ≠ none := by
  rw [forkLoss] at hloss
  split_ifs at hloss with hmax hnone hmm hmm' hdup
  all_goals
    rw [not_or] at hnone
    obtain ⟨p, hp⟩ := Option.ne_none_iff_exists'.mp hnone.1
    obtain ⟨page, hpage⟩ := Option.ne_none_iff_exists'.mp hnone.2
    obtain ⟨t, halloc, hprivate⟩ := forkAlloc_run hs hmem hmax hp hpage
    have hlive := hmem.proc p hp
    have hne : s.current ≠ p := by
      rintro rfl
      exact hlive hs.current_live
    have hend : ∀ u, (copyMm flags p mem).run t = .ok () u → s.Unlinked u p →
        ∃ p v, (doFork flags mem).run s =
            (do
              let s ← get
              let _ ← forkFiles flags p mem
              return (s.proc p).pid : KProg ℕ).run v ∧
          v.nrProcess = s.nrProcess + 1 ∧ p ∈ v.procList ∧
            (v.proc v.current).filesp ≠ none := by
      intro u hcopy hu
      obtain ⟨w, v, hlink, hwake, hnr, hlist, hfilesp⟩ := forkPublish_run hs hu hlive
      refine ⟨p, v, ?_, hnr, hlist, hfilesp ▸ hs.filesp⟩
      rw [doFork, bind_of_ok halloc, bind_of_ok (onError_of_ok hcopy _), bind_of_ok hlink,
        bind_of_ok hwake]
  · obtain ⟨u, hcopy, hu⟩ := copyMm_succeeds hprivate.toUnlinked hne (.inl hmm)
    exact hend u hcopy hu
  · obtain ⟨u, hcopy, hu⟩ := copyMm_succeeds hprivate.toUnlinked hne (.inr ⟨hmm', hdup⟩)
    exact hend u hcopy hu

/-- When `copy_files` fails, the call returns the number of a process that is listed and counted,
and whose structure is freed. -/
theorem doFork_filesFail (hs : s.CanFork) (hmem : mem.Fits s) (hloss : s.forkLoss flags mem = none)
    (hfail : mem.FilesFail flags) :
    ∃ p pid t, (doFork flags mem).run s = .ok pid t ∧ p ∈ t.procList ∧ p ∉ t.live ∧
      t.nrProcess = s.nrProcess + 1 := by
  obtain ⟨p, v, hrun, hnr, hlist, hfilesp⟩ := doFork_publishes hs hmem hloss
  have hfree : (forkFiles flags p mem).run v =
      .ok [] (((v.growArena mem.files).putKstack p).kfreeProc p) := by
    rw [forkFiles, bind_of_ok (attempt_of_error (copyFiles_fails hfilesp hfail))]
    dsimp only
    rw [badForkCleanupKstack, modify_bind_run, run_pure]
  have hput : ((v.growArena mem.files).putKstack p).nrProcess = v.nrProcess ∧
      ((v.growArena mem.files).putKstack p).procList = v.procList := by
    rw [putKstack]
    split <;> exact ⟨rfl, rfl⟩
  refine ⟨p, (v.proc p).pid, ((v.growArena mem.files).putKstack p).kfreeProc p, ?_, ?_,
    Finset.notMem_erase p _, hput.1.trans hnr⟩
  · rw [hrun, get_bind_run, bind_of_ok hfree, run_pure]
  · change p ∈ ((v.growArena mem.files).putKstack p).procList
    rw [hput.2]
    exact hlist

/-- A call of `do_fork` that returns an error has left no trace but that the pages of `forkLoss` are
not free any more: those by which the arena of `kmalloc` grew, and if `dup_mmap` failed those that
`exit_mmap` did not give back. No freed structure can be reached. -/
theorem doFork_untouched (hs : s.CanFork) (hmem : mem.Fits s) {e : Errno}
    (hrun : (doFork flags mem).run s = .error e t) :
    ∃ lost, s.forkLoss flags mem = some lost ∧ lost ⊆ s.mem.freePages ∧ s.Untouched lost t ∧
      ∀ q ∈ t.procList, q ∈ t.live := by
  cases hloss : s.forkLoss flags mem with
  | some lost =>
    obtain ⟨e', t', hfail, huntouched, hsub⟩ := doFork_fails hs hmem hloss
    obtain ⟨-, rfl⟩ := Outcome.error.inj (hfail.symm.trans hrun)
    refine ⟨lost, rfl, hsub, huntouched, fun q hq ↦ ?_⟩
    rw [huntouched.procList] at hq
    rw [huntouched.live]
    exact hs.listed q hq
  | none =>
    obtain ⟨p, v, hend, -⟩ := doFork_publishes hs hmem hloss
    have hsat : ((do
        let s ← get
        let _ ← forkFiles flags p mem
        return (s.proc p).pid : KProg ℕ).run v).Sat (fun _ _ ↦ True) fun _ _ ↦ False := by
      rw [get_bind_run]
      exact sat_bind (forkFiles_returns flags p mem v) fun _ _ _ ↦ trivial
    rw [← hend, hrun] at hsat
    exact hsat.elim

/-! ## At boot -/

/-- `proc_init` can call `do_fork`. -/
theorem booting_canFork (value : ℕ → ℤ) (memory : Memory) (idle f page : ℕ) :
    (booting value memory idle f page).CanFork where
  waitState := by
    change ((booting value memory idle f page).proc idle).waitState = 0
    rw [booting_proc_self]
    rfl
  filesp := by
    change ((booting value memory idle f page).proc idle).filesp ≠ none
    rw [booting_proc_self]
    exact Option.some_ne_none f
  current_live := Finset.mem_insert_self idle ∅
  listed p hp := absurd hp List.not_mem_nil
  pids := PidState.boot_ok

section Sample

/-- The kernel at boot with one free page. -/
def tightKernel : Kernel := booting (fun _ ↦ 1) { sampleMemory with freePages := {10} } 1 1 1

/-- The allocator of small blocks takes pages to answer, and then there is none for the stack. -/
def noStack (grown : Finset ℕ) : ForkMem :=
  { sampleFork 2 2 2 with proc := ⟨some 2, grown⟩, kstack := none }

theorem noStack_fits {grown : Finset ℕ} (h : grown ⊆ {10}) : (noStack grown).Fits tightKernel where
  proc p hp := by
    cases hp
    decide
  mm m hm := by
    cases hm
    decide
  grownProc := h
  kstack page hpage := by cases hpage
  grownMm page hpage := by cases hpage
  dup page d hpage := by cases hpage
  dupLost d _ := Finset.disjoint_empty_right _

theorem noStack_loss (grown : Finset ℕ) : tightKernel.forkLoss 0 (noStack grown) = some grown := by
  rw [forkLoss, if_neg (by decide), if_pos (.inr rfl)]
  rfl

/-- The structure fits into the arena, and there is no page for the kernel stack. -/
theorem doFork_untouched_sample : ∃ t lost,
    (doFork 0 (noStack ∅)).run tightKernel = .error .noMem t ∧
    tightKernel.forkLoss 0 (noStack ∅) = some lost ∧ lost ⊆ tightKernel.mem.freePages ∧
    tightKernel.Untouched lost t ∧ ∀ q ∈ t.procList, q ∈ t.live := by
  obtain ⟨t, hrun⟩ : ∃ t, (doFork 0 (noStack ∅)).run tightKernel = .error .noMem t := ⟨_, rfl⟩
  obtain ⟨lost, hlost⟩ := doFork_untouched (booting_canFork _ _ 1 1 1)
    (noStack_fits (Finset.empty_subset _)) hrun
  exact ⟨t, lost, hrun, hlost⟩

/-- The arena takes the last page for the structure, and keeps it when the call fails for want of a
kernel stack. -/
theorem doFork_keeps_arena : ¬∀ (s : Kernel) (flags : BitVec 32) (mem : ForkMem), s.CanFork →
    mem.Fits s → ∀ e t, (doFork flags mem).run s = .error e t → s.NoTrace t := by
  intro hall
  have hcan : tightKernel.CanFork := booting_canFork _ _ 1 1 1
  have hfits := noStack_fits (Finset.Subset.refl {10})
  obtain ⟨e, t, hrun, huntouched, -⟩ := doFork_fails hcan hfits (noStack_loss {10})
  have htrace := (hall tightKernel 0 (noStack {10}) hcan hfits e t hrun).freePages
  rw [huntouched.freePages] at htrace
  exact absurd htrace (by decide)

end Sample

end Ucore
