import Ucore.Mm.FreeAreaRuns
import Ucore.Mm.PageRuns

/-!
# Page tables over the default allocator

The routines of `kern/mm/pmm.c` with `default_alloc_pages` and `default_free_pages` behind
`alloc_page` and `free_page`. Memory keeps the calls of the allocator, so its free list is what
these calls make of the list after boot, and the answer to the next request is read off that list.

## What carries the counts

The counts are exact as long as the allocator answers with pages that are free. A call first takes
pages and then gives pages back, so it is enough that the list is in order before the call:
`Stocked` says that the list holds exactly the pages that memory takes for free. Along what a call
takes, the answers are then those of an allocator that only answers with free pages, and the call
does what it does over that one.

What a call gives back keeps the list in order where `default_free_pages` puts the page into an
empty list or in front of another block. Behind the last of several free blocks it links the page
to itself, and the page is handed out twice later on: `defaultRun_refs_wrong` is a run in which a
page that is mapped at two addresses becomes a page table.
-/

namespace Ucore

open Prog Extents

/-! ## What a routine asks the allocator for -/

/-- Pages were taken, as `A` answers. -/
inductive Takes (A : Pick) (s : Mem) : Mem → Prop
  | keep {t : Mem} (hcalls : t.calls = s.calls) (hfree : t.free = s.free) : Takes A s t
  | ask {t u : Mem} (h : Takes A s t) (hnone : A t.calls t.free = none)
    (hcalls : u.calls = .alloc :: t.calls) (hfree : u.free = t.free) : Takes A s u
  | take {t u : Mem} {f : ℕ} (h : Takes A s t) (hsome : A t.calls t.free = some f)
    (hcalls : u.calls = .alloc :: t.calls) (hfree : u.free = t.free.erase f) : Takes A s u

/-- Pages that were not free were given back. -/
inductive Gives (s : Mem) : Mem → Prop
  | keep {t : Mem} (hcalls : t.calls = s.calls) (hfree : t.free = s.free) : Gives s t
  | free {t u : Mem} {f : ℕ} (h : Gives s t) (hf : f ∉ t.free)
    (hcalls : u.calls = .free f :: t.calls) (hfree : u.free = insert f t.free) : Gives s u

theorem Takes.refl {A : Pick} (s : Mem) : Takes A s s := .keep rfl rfl

theorem Takes.congr {A : Pick} {s t u : Mem} (h : Takes A s t) (hcalls : u.calls = t.calls)
    (hfree : u.free = t.free) : Takes A s u := by
  cases h with
  | keep hcalls' hfree' => exact .keep (hcalls.trans hcalls') (hfree.trans hfree')
  | ask h hnone hcalls' hfree' => exact .ask h hnone (hcalls.trans hcalls') (hfree.trans hfree')
  | take h hsome hcalls' hfree' => exact .take h hsome (hcalls.trans hcalls') (hfree.trans hfree')

theorem Takes.trans {A : Pick} {s t u : Mem} (h : Takes A s t) (h' : Takes A t u) :
    Takes A s u := by
  induction h' with
  | keep hcalls hfree => exact h.congr hcalls hfree
  | ask _ hnone hcalls hfree ih => exact .ask ih hnone hcalls hfree
  | take _ hsome hcalls hfree ih => exact .take ih hsome hcalls hfree

theorem Gives.congr {s t u : Mem} (h : Gives s t) (hcalls : u.calls = t.calls)
    (hfree : u.free = t.free) : Gives s u := by
  cases h with
  | keep hcalls' hfree' => exact .keep (hcalls.trans hcalls') (hfree.trans hfree')
  | free h hf hcalls' hfree' => exact .free h hf (hcalls.trans hcalls') (hfree.trans hfree')

theorem Gives.trans {s t u : Mem} (h : Gives s t) (h' : Gives t u) : Gives s u := by
  induction h' with
  | keep hcalls hfree => exact h.congr hcalls hfree
  | free _ hf hcalls hfree ih => exact .free ih hf hcalls hfree

/-- Pages were taken, and then pages were given back. -/
def Uses (A : Pick) (s t : Mem) : Prop := ∃ m, Takes A s m ∧ Gives m t

theorem Takes.uses {A : Pick} {s t : Mem} (h : Takes A s t) : Uses A s t := ⟨t, h, .keep rfl rfl⟩

theorem Gives.uses {A : Pick} {s t : Mem} (h : Gives s t) : Uses A s t := ⟨s, .refl s, h⟩

theorem Takes.trans_uses {A : Pick} {s t u : Mem} (h : Takes A s t) (h' : Uses A t u) :
    Uses A s u := h'.imp fun _ hm ↦ ⟨h.trans hm.1, hm.2⟩

theorem Uses.trans_gives {A : Pick} {s t u : Mem} (h : Uses A s t) (h' : Gives t u) :
    Uses A s u := h.imp fun _ hm ↦ ⟨hm.1, hm.2.trans h'⟩

instance {A : Pick} : Std.Refl (Takes A) := ⟨Takes.refl⟩

instance {A : Pick} : IsTrans Mem (Takes A) := ⟨fun _ _ _ h h' ↦ h.trans h'⟩

instance : Std.Refl Gives := ⟨fun _ ↦ .keep rfl rfl⟩

instance : IsTrans Mem Gives := ⟨fun _ _ _ h h' ↦ h.trans h'⟩

section Moves

variable {A : Pick}

theorem frameOf_moves {R : Mem → Mem → Prop} [Std.Refl R] [IsTrans Mem R] (pte : BitVec 64) :
    Moves R (frameOf pte) :=
  (Moves.assert _).bind fun _ ↦ .pure _

theorem allocPage_takes : Moves (Takes A) (allocPage A) := by
  intro s
  rw [allocPage, get_bind_run]
  cases hpick : A s.calls s.free with
  | none => exact .ask (.refl s) hpick rfl rfl
  | some f => exact .take (.refl s) hpick rfl rfl

theorem getTable_takes (f i : ℕ) (create : Bool) : Moves (Takes A) (getTable A f i create) := by
  refine Moves.get.bind fun s ↦ .ite (fun _ ↦ (frameOf_moves _).bind fun _ ↦ .pure _) fun _ ↦
    .ite (fun _ ↦ allocPage_takes.bind fun page ↦ ?_) fun _ ↦ .pure _
  cases page with
  | none => exact .pure _
  | some page =>
    refine (Moves.modify fun _ ↦ .keep rfl rfl).bind fun _ ↦ ?_
    refine (Moves.modify fun _ ↦ .keep rfl rfl).bind fun _ ↦ ?_
    exact (Moves.modify fun _ ↦ .keep rfl rfl).bind fun _ ↦ Moves.get.bind fun _ ↦
      (frameOf_moves _).bind fun _ ↦ .pure _

theorem getPte_takes (pgdir la : ℕ) (create : Bool) :
    Moves (Takes A) (getPte A pgdir la create) := by
  refine (getTable_takes _ _ _).bind fun pd0 ↦ ?_
  cases pd0 with
  | none => exact .pure _
  | some pd0 =>
    refine (getTable_takes _ _ _).bind fun pt ↦ ?_
    cases pt with
    | none => exact .pure _
    | some pt => exact .pure _

theorem setupPgdir_takes (boot : ℕ → BitVec 64) : Moves (Takes A) (setupPgdir A boot) := by
  refine allocPage_takes.bind fun page ↦ ?_
  cases page with
  | none => exact .fail _
  | some page => exact (Moves.modify fun _ ↦ .keep rfl rfl).bind fun _ ↦ .pure _

theorem freePage_gives (f : ℕ) : Moves Gives (freePage f) := by
  intro s
  rw [freePage, get_bind_run]
  by_cases hf : f ∉ s.free
  · rw [assert_bind_run hf]
    exact .free (.keep rfl rfl) hf rfl rfl
  · rw [assert_bind_run_neg hf]
    trivial

theorem pte2page_gives (pte : BitVec 64) : Moves Gives (pte2page pte) :=
  (Moves.assert _).bind fun _ ↦ frameOf_moves _

theorem pageRemovePte_gives (ptep : ℕ × ℕ) : Moves Gives (pageRemovePte ptep) :=
  Moves.get.bind fun _ ↦ .ite
    (fun _ ↦ (pte2page_gives _).bind fun _ ↦ (Moves.modify fun _ ↦ .keep rfl rfl).bind fun _ ↦
      Moves.get.bind fun _ ↦ .ite
        (fun _ ↦ (freePage_gives _).bind fun _ ↦ Moves.modify fun _ ↦ .keep rfl rfl)
        fun _ ↦ Moves.modify fun _ ↦ .keep rfl rfl)
    fun _ ↦ .pure _

theorem dropOld_gives (page : ℕ) (ptep : ℕ × ℕ) : Moves Gives (dropOld page ptep) :=
  Moves.get.bind fun _ ↦ .ite
    (fun _ ↦ (pte2page_gives _).bind fun _ ↦
      .ite (fun _ ↦ Moves.modify fun _ ↦ .keep rfl rfl) fun _ ↦ pageRemovePte_gives _)
    fun _ ↦ .pure _

/-- A table that is only looked for takes nothing. -/
theorem getTable_false_gives (f i : ℕ) : Moves Gives (getTable A f i false) :=
  Moves.get.bind fun _ ↦ .ite (fun _ ↦ (frameOf_moves _).bind fun _ ↦ .pure _) fun _ ↦
    .ite (fun h ↦ absurd h Bool.false_ne_true) fun _ ↦ .pure _

theorem getPte_false_gives (pgdir la : ℕ) : Moves Gives (getPte A pgdir la false) := by
  refine (getTable_false_gives _ _).bind fun pd0 ↦ ?_
  cases pd0 with
  | none => exact .pure _
  | some pd0 =>
    refine (getTable_false_gives _ _).bind fun pt ↦ ?_
    cases pt with
    | none => exact .pure _
    | some pt => exact .pure _

theorem pageRemove_gives (pgdir la : ℕ) : Moves Gives (pageRemove A pgdir la) := by
  refine (getPte_false_gives _ _).bind fun ptep ↦ ?_
  cases ptep with
  | none => exact .pure _
  | some ptep => exact pageRemovePte_gives ptep

theorem rangeLoop_gives {pgdir stop : ℕ} {body : ℕ → ℕ × ℕ → MemProg Unit}
    (hbody : ∀ start ptep, Moves Gives (body start ptep)) (fuel start : ℕ) :
    Moves Gives (rangeLoop A pgdir stop body fuel start) := by
  induction fuel generalizing start with
  | zero => exact .halt
  | succ fuel ih =>
    refine .bind ?_ fun next ↦ .ite (fun _ ↦ ih next) fun _ ↦ .pure _
    refine (getPte_false_gives _ _).bind fun ptep ↦ ?_
    cases ptep with
    | none => exact .pure _
    | some ptep => exact (hbody start ptep).bind fun _ ↦ .pure _

theorem unmapRange_gives (pgdir start stop : ℕ) : Moves Gives (unmapRange A pgdir start stop) :=
  (Moves.assert _).bind fun _ ↦ (Moves.assert _).bind fun _ ↦ rangeLoop_gives
    (fun _ _ ↦ Moves.get.bind fun _ ↦ .ite (fun _ ↦ pageRemovePte_gives _) fun _ ↦ .pure _) _ _

/-- A page that is entered first takes pages for its tables, and then gives the old page back. -/
theorem pageInsert_uses (pgdir page la : ℕ) (perm : BitVec 64) :
    Moves (Uses A) (pageInsert A pgdir page la perm) := by
  intro s
  refine sat_bind ((getPte_takes pgdir la true s).imp (fun _ _ ht ↦ ht) fun _ _ ht ↦ ht.uses)
    fun ptep t ht ↦ ?_
  cases ptep with
  | none => exact ht.uses
  | some ptep =>
    have hgives : Moves Gives (do
        Prog.modify fun s : Mem ↦ s.setRef page (s.ref page + 1)
        dropOld page ptep
        Prog.modify fun s ↦ s.setWord ptep.1 ptep.2 (pteCreate page (pteV ||| perm)) :
        MemProg Unit) :=
      (Moves.modify fun _ ↦ .keep rfl rfl).bind fun _ ↦ (dropOld_gives _ _).bind fun _ ↦
        Moves.modify fun _ ↦ .keep rfl rfl
    exact (hgives t).imp (fun _ u hu ↦ ⟨t, ht, hu⟩) fun _ u hu ↦ ⟨t, ht, hu⟩

theorem pgdirAllocPage_uses (pgdir la : ℕ) (perm : BitVec 64) :
    Moves (Uses A) (pgdirAllocPage A pgdir la perm) := by
  intro s
  refine sat_bind ((allocPage_takes s).imp (fun _ _ ht ↦ ht) fun _ _ ht ↦ ht.uses)
    fun page t ht ↦ ?_
  cases page with
  | none => exact ht.uses
  | some page =>
    refine sat_bind (R := fun _ u ↦ Uses A s u) ?_ fun ret u hu ↦ ?_
    · exact (Moves.attempt (pageInsert_uses pgdir page la perm) t).imp
        (fun _ _ hu ↦ ht.trans_uses hu) fun _ _ hu ↦ ht.trans_uses hu
    · cases ret with
      | ok => exact hu
      | error =>
        exact ((freePage_gives page).bind (fun _ ↦ .pure none) u).imp (fun _ _ h ↦ hu.trans_gives h)
          fun _ _ h ↦ hu.trans_gives h

variable {boot : ℕ → BitVec 64} {st st' : PageState}

/-- What a routine does to memory it does in a run of it. -/
theorem rel_of_state {α : Type} {R : Mem → Mem → Prop} {m : MemProg α} {s t : Mem} (hm : Moves R m)
    (h : (m.run s).state? = some t) : R s t := by
  have hsat := hm s
  cases hres : m.run s with
  | ok a u =>
    rw [hres] at h hsat
    cases h
    exact hsat
  | error e u =>
    rw [hres] at h hsat
    cases h
    exact hsat
  | panic =>
    rw [hres] at h
    cases h

/-- A call takes pages, and then gives pages back. -/
theorem PageState.exec_uses {call : PageCall} (h : st.exec A boot call = some st') :
    Uses A st.mem st'.mem := by
  cases call with
  | allocPage =>
    refine (rel_of_state (m := allocPage A) allocPage_takes ?_).uses
    rw [exec] at h
    cases hres : (Ucore.allocPage A).run st.mem <;> rw [hres] at h <;> cases h <;> rfl
  | setupPgdir =>
    refine (rel_of_state (m := setupPgdir A boot) (setupPgdir_takes boot) ?_).uses
    rw [exec] at h
    cases hres : (Ucore.setupPgdir A boot).run st.mem <;> rw [hres] at h <;> cases h <;> rfl
  | pageInsert d page la perm =>
    refine rel_of_state (pageInsert_uses d page la perm) ?_
    rw [exec] at h
    cases hres : (Ucore.pageInsert A d page la perm).run st.mem <;> rw [hres] at h <;> cases h <;>
      rfl
  | pageRemove d la =>
    refine (rel_of_state (m := pageRemove A d la) (pageRemove_gives d la) ?_).uses
    rw [exec] at h
    cases hres : (Ucore.pageRemove A d la).run st.mem <;> rw [hres] at h <;> cases h <;> rfl
  | pgdirAllocPage d la perm =>
    refine rel_of_state (pgdirAllocPage_uses d la perm) ?_
    rw [exec] at h
    cases hres : (Ucore.pgdirAllocPage A d la perm).run st.mem <;> rw [hres] at h <;> cases h <;>
      rfl
  | unmapRange d start stop =>
    refine (rel_of_state (m := unmapRange A d start stop) (unmapRange_gives d start stop) ?_).uses
    rw [exec] at h
    cases hres : (Ucore.unmapRange A d start stop).run st.mem <;> rw [hres] at h <;> cases h <;>
      rfl

end Moves

/-! ## Allocators that answer the same -/

section Congr

variable {A B : Pick} {s : Mem} {boot : ℕ → BitVec 64}

/-- Along what is taken, the two allocators answer the same. -/
def Alike (A B : Pick) (s : Mem) : Prop :=
  ∀ t, Takes A s t → A t.calls t.free = B t.calls t.free

theorem Alike.takes {t : Mem} (h : Alike A B s) (ht : Takes A s t) : Alike A B t :=
  fun u hu ↦ h u (ht.trans hu)

/-- Two routines that start the same and go on the same run the same. -/
theorem bind_congr {α β : Type} {m m' : MemProg α} {f g : α → MemProg β}
    (hm : m.run s = m'.run s) (hf : ∀ a t, m.run s = .ok a t → (f a).run t = (g a).run t) :
    (m >>= f).run s = (m' >>= g).run s := by
  rw [run_bind, run_bind, ← hm]
  cases hres : m.run s with
  | ok a t => exact hf a t hres
  | error e t => rfl
  | panic => rfl

theorem takes_of_ok {α : Type} {m : MemProg α} {a : α} {t : Mem} (hm : Moves (Takes A) m)
    (h : m.run s = .ok a t) : Takes A s t :=
  rel_of_state hm (by rw [h, Outcome.state?_ok])

theorem allocPage_congr (h : Alike A B s) : (allocPage A).run s = (allocPage B).run s := by
  rw [allocPage, allocPage, get_bind_run, get_bind_run, h s (.refl s)]

theorem getTable_congr (h : Alike A B s) (f i : ℕ) (create : Bool) :
    (getTable A f i create).run s = (getTable B f i create).run s := by
  rw [getTable, getTable, get_bind_run, get_bind_run]
  split_ifs
  · rfl
  · exact bind_congr (allocPage_congr h) fun _ _ _ ↦ rfl
  · rfl

theorem getPte_congr (h : Alike A B s) (pgdir la : ℕ) (create : Bool) :
    (getPte A pgdir la create).run s = (getPte B pgdir la create).run s := by
  refine bind_congr (getTable_congr h _ _ _) fun pd0 t ht ↦ ?_
  cases pd0 with
  | none => rfl
  | some pd0 =>
    exact bind_congr (getTable_congr (h.takes (takes_of_ok (getTable_takes _ _ _) ht)) _ _ _)
      fun _ _ _ ↦ rfl

theorem pageInsert_congr (h : Alike A B s) (pgdir page la : ℕ) (perm : BitVec 64) :
    (pageInsert A pgdir page la perm).run s = (pageInsert B pgdir page la perm).run s :=
  bind_congr (getPte_congr h _ _ _) fun _ _ _ ↦ rfl

theorem pgdirAllocPage_congr (h : Alike A B s) (pgdir la : ℕ) (perm : BitVec 64) :
    (pgdirAllocPage A pgdir la perm).run s = (pgdirAllocPage B pgdir la perm).run s := by
  refine bind_congr (allocPage_congr h) fun page t ht ↦ ?_
  cases page with
  | none => rfl
  | some page =>
    refine bind_congr ?_ fun _ _ _ ↦ rfl
    rw [run_attempt, run_attempt,
      pageInsert_congr (h.takes (takes_of_ok allocPage_takes ht)) pgdir page la perm]

/-- A search that makes no tables asks for nothing. -/
theorem getPte_false_eq (A B : Pick) (pgdir la : ℕ) :
    getPte A pgdir la false = getPte B pgdir la false := rfl

theorem rangeLoop_eq (A B : Pick) (pgdir stop : ℕ) (body : ℕ → ℕ × ℕ → MemProg Unit)
    (fuel start : ℕ) :
    rangeLoop A pgdir stop body fuel start = rangeLoop B pgdir stop body fuel start := by
  induction fuel generalizing start with
  | zero => rfl
  | succ fuel ih =>
    have hstep : rangeStep A pgdir body start = rangeStep B pgdir body start := by
      rw [rangeStep, rangeStep, getPte_false_eq A B]
    rw [rangeLoop, rangeLoop, hstep]
    simp only [ih]

/-- A call is the same over both. -/
theorem PageState.exec_congr {st : PageState} (h : Alike A B st.mem) (call : PageCall) :
    st.exec A boot call = st.exec B boot call := by
  cases call with
  | allocPage => rw [exec, exec, allocPage_congr h]
  | setupPgdir =>
    have hrun : (Ucore.setupPgdir A boot).run st.mem = (Ucore.setupPgdir B boot).run st.mem :=
      bind_congr (allocPage_congr h) fun _ _ _ ↦ rfl
    rw [exec, exec, hrun]
  | pageInsert d page la perm => rw [exec, exec, pageInsert_congr h]
  | pageRemove d la => rw [exec, exec, pageRemove, pageRemove, getPte_false_eq A B]
  | pgdirAllocPage d la perm => rw [exec, exec, pgdirAllocPage_congr h]
  | unmapRange d start stop => rw [exec, exec, unmapRange, unmapRange, rangeLoop_eq A B]

end Congr

/-! ## The default allocator -/

/-- The free list of `default_pmm.c` after some calls, the last one first; there is none when a call
has stopped the machine. -/
def FreeArea.after (area : FreeArea) : List PageReq → Option FreeArea
  | [] => some area
  | .alloc :: calls => do
    match (defaultAllocPages 1).run (← area.after calls) with
    | .ok _ b => some b
    | _ => none
  | .free f :: calls => do
    match (defaultFreePages f 1).run (← area.after calls) with
    | .ok _ b => some b
    | _ => none

/-- What `default_alloc_pages` answers after some calls. -/
def FreeArea.pick (area : FreeArea) : Pick := fun calls _ ↦ do
  match (defaultAllocPages 1).run (← area.after calls) with
  | .ok page _ => page
  | _ => none

/-- Every page that was given back went into an empty free list or in front of another block. -/
def FreeArea.TidyFrees (area : FreeArea) : List PageReq → Prop
  | [] => True
  | .alloc :: calls => area.TidyFrees calls
  | .free f :: calls =>
    area.TidyFrees calls ∧ ∀ b ∈ area.after calls, PmmCall.Tidy false b (.freePages f 1)

instance FreeArea.decidableTidyFrees (area : FreeArea) : DecidablePred area.TidyFrees
  | [] => isTrue trivial
  | .alloc :: calls => FreeArea.decidableTidyFrees area calls
  | .free _ :: calls =>
    @instDecidableAnd _ _ (FreeArea.decidableTidyFrees area calls) inferInstance

/-- The free list holds the pages that memory takes for free. -/
def Stocked (area : FreeArea) (managed : Finset ℕ) (s : Mem) : Prop :=
  ∃ b xs, area.after s.calls = some b ∧ b.Rep managed xs ∧ cover xs = s.free

namespace Stocked

variable {area : FreeArea} {managed : Finset ℕ} {s t : Mem}

theorem span_one (f : ℕ) : span (f, 1) = {f} := by
  ext p
  rw [mem_span, Finset.mem_singleton]
  dsimp only
  omega

theorem free_subset (h : Stocked area managed s) : s.free ⊆ managed := by
  obtain ⟨b, xs, -, hrep, hcover⟩ := h
  exact hcover ▸ hrep.cover_subset

/-- A request is answered with a free page, or with none when there is none, and the free list is
that without the page. -/
theorem alloc (h : Stocked area managed s) (free : Finset ℕ) :
    (area.pick s.calls free = none ∧ s.free = ∅ ∧
      ∀ u : Mem, u.calls = .alloc :: s.calls → u.free = s.free → Stocked area managed u) ∨
    ∃ f ∈ s.free, area.pick s.calls free = some f ∧ ∀ u : Mem, u.calls = .alloc :: s.calls →
      u.free = s.free.erase f → Stocked area managed u := by
  obtain ⟨b, xs, hafter, hrep, hcover⟩ := h
  have hpick : ∀ {page : Option ℕ} {b' : FreeArea}, (defaultAllocPages 1).run b = .ok page b' →
      area.pick s.calls free = page ∧ area.after (.alloc :: s.calls) = some b' := by
    intro page b' hrun
    rw [FreeArea.pick, FreeArea.after, hafter]
    simp only [Option.bind_eq_bind, Option.bind_some, hrun, and_self]
  rcases Pmm.allocPages_run Pmm.searches_default hrep Nat.one_pos with
    ⟨f, b', ys, hrun, hrep', -, hsub, hcover'⟩ | ⟨hrun, hfull⟩
  · obtain ⟨hanswer, hnext⟩ := hpick hrun
    rw [span_one, Finset.singleton_subset_iff, hcover] at hsub
    rw [span_one, hcover, Finset.sdiff_singleton_eq_erase] at hcover'
    exact .inr ⟨f, hsub, hanswer, fun u hcalls hfree ↦
      ⟨b', ys, by rw [hcalls, hnext], hrep', by rw [hfree, hcover']⟩⟩
  · obtain ⟨hanswer, hnext⟩ := hpick hrun
    refine .inl ⟨hanswer, Finset.eq_empty_of_forall_notMem fun f hf ↦ hfull f ?_,
      fun u hcalls hfree ↦ ⟨b, xs, by rw [hcalls, hnext], hrep, by rw [hfree, hcover]⟩⟩
    rw [span_one, Finset.singleton_subset_iff, hcover]
    exact hf

/-- Taking pages keeps the list in order. -/
theorem takes (h : Stocked area managed s) (ht : Takes area.pick s t) : Stocked area managed t := by
  induction ht with
  | keep hcalls hfree =>
    obtain ⟨b, xs, hafter, hrep, hcover⟩ := h
    exact ⟨b, xs, by rw [hcalls, hafter], hrep, by rw [hfree, hcover]⟩
  | @ask t u _ hnone hcalls hfree ih =>
    rcases ih.alloc t.free with ⟨-, -, hnext⟩ | ⟨f, -, hsome, -⟩
    · exact hnext _ hcalls hfree
    · rw [hnone] at hsome
      cases hsome
  | @take t u f _ hsome hcalls hfree ih =>
    rcases ih.alloc t.free with ⟨hnone, -, -⟩ | ⟨f', -, hsome', hnext⟩
    · rw [hnone] at hsome
      cases hsome
    · rw [hsome'] at hsome
      cases hsome
      exact hnext _ hcalls hfree

/-- A page that is given back in front of another block keeps the list in order. -/
theorem free {f : ℕ} (h : Stocked area managed s) (hf : f ∈ managed) (hout : f ∉ s.free)
    (htidy : area.TidyFrees (.free f :: s.calls)) (hcalls : t.calls = .free f :: s.calls)
    (hfree : t.free = insert f s.free) : Stocked area managed t := by
  obtain ⟨b, xs, hafter, hrep, hcover⟩ := h
  have hsub : span (f, 1) ⊆ managed := by rwa [span_one, Finset.singleton_subset_iff]
  have hdisj : Disjoint (span (f, 1)) (cover xs) := by
    rwa [span_one, Finset.disjoint_singleton_left, hcover]
  obtain ⟨b', ys, hrun, hrep', -, hcover'⟩ :=
    Pmm.freePages_run hrep Nat.one_pos hsub hdisj (htidy.2 b hafter)
  refine ⟨b', ys, ?_, hrep', ?_⟩
  · have hrun' : (defaultFreePages f 1).run b = .ok () b' := hrun
    rw [hcalls, FreeArea.after, hafter]
    simp only [Option.bind_eq_bind, Option.bind_some, hrun']
  · rw [hfree, hcover', hcover, span_one, Finset.union_comm, ← Finset.insert_eq]

theorem gives (h : Stocked area managed s) (hg : Gives s t) (hsub : t.free ⊆ managed)
    (htidy : area.TidyFrees t.calls) : Stocked area managed t := by
  induction hg with
  | keep hcalls hfree =>
    obtain ⟨b, xs, hafter, hrep, hcover⟩ := h
    exact ⟨b, xs, by rw [hcalls, hafter], hrep, by rw [hfree, hcover]⟩
  | @free t u f _ hf hcalls hfree ih =>
    rw [hfree, Finset.insert_subset_iff] at hsub
    rw [hcalls] at htidy
    exact (ih hsub.2 htidy.1).free hsub.1 hf htidy hcalls hfree

end Stocked

/-! ## Runs -/

namespace FreeArea

variable {area : FreeArea} {managed : Finset ℕ} {A : Pick} {s t : Mem}

/-- The default allocator, where it only answers with free pages. -/
def source (area : FreeArea) : PageSource where
  pick calls free := (area.pick calls free).filter (· ∈ free)
  pick_mem h := of_decide_eq_true (Option.filter_eq_some_iff.mp h).2

/-- As long as the free list is in order, it only answers with free pages. -/
theorem alike_source (h : Stocked area managed s) : Alike area.pick area.source s := by
  intro t ht
  change _ = (area.pick t.calls t.free).filter (· ∈ t.free)
  rcases (h.takes ht).alloc t.free with ⟨hnone, -, -⟩ | ⟨f, hf, hsome, -⟩
  · rw [hnone, Option.filter_none]
  · rw [hsome, eq_comm, Option.filter_eq_some_iff]
    exact ⟨rfl, decide_eq_true hf⟩

theorem TidyFrees.of_takes (ht : Takes A s t) (h : area.TidyFrees t.calls) :
    area.TidyFrees s.calls := by
  induction ht with
  | keep hcalls _ => rwa [hcalls] at h
  | ask _ _ hcalls _ ih =>
    rw [hcalls] at h
    exact ih h
  | take _ _ hcalls _ ih =>
    rw [hcalls] at h
    exact ih h

theorem TidyFrees.of_gives (hg : Gives s t) (h : area.TidyFrees t.calls) :
    area.TidyFrees s.calls := by
  induction hg with
  | keep hcalls _ => rwa [hcalls] at h
  | free _ _ hcalls _ ih =>
    rw [hcalls] at h
    exact ih h.1

end FreeArea

/-- What a call over the default allocator leaves; nothing when it stops the machine. -/
def PageState.step (area : FreeArea) (boot : ℕ → BitVec 64) (st : PageState) (call : PageCall) :
    Option PageState :=
  (st.exec area.pick boot call).filter fun st' ↦ (area.after st'.mem.calls).isSome

/-- The states that calls over the default allocator lead to. -/
inductive DefaultRun (area : FreeArea) (boot : ℕ → BitVec 64) (st₀ : PageState) : PageState → Prop
  | start : DefaultRun area boot st₀ st₀
  | step {st st' : PageState} {call : PageCall} (hrun : DefaultRun area boot st₀ st)
    (hallowed : st.Allowed call) (hstep : st.step area boot call = some st') :
    DefaultRun area boot st₀ st'

/-- The calls of a script made one after the other. -/
def PageState.followDefault (area : FreeArea) (boot : ℕ → BitVec 64) :
    List PageCall → PageState → Option PageState
  | [], st => some st
  | call :: calls, st =>
    if st.Allowed call then (st.step area boot call).bind (followDefault area boot calls) else none

theorem PageState.run_of_followDefault {area : FreeArea} {boot : ℕ → BitVec 64}
    {calls : List PageCall} {st₀ st st' : PageState} (hrun : DefaultRun area boot st₀ st)
    (h : PageState.followDefault area boot calls st = some st') : DefaultRun area boot st₀ st' := by
  induction calls generalizing st with
  | nil =>
    cases h
    exact hrun
  | cons call calls ih =>
    rw [followDefault] at h
    split_ifs at h with hallowed
    obtain ⟨st₁, hstep, hrest⟩ := Option.bind_eq_some_iff.mp h
    exact ih (hrun.step hallowed hstep) hrest

/-- The counts are exact, the free list is in order, and the pages that callers have and those that
are mapped are pages of the allocator. -/
structure PageState.Sound (area : FreeArea) (managed : Finset ℕ) (st : PageState)
    (kind : ℕ → FrameKind) : Prop extends st.Ok kind where
  stocked : Stocked area managed st.mem
  pages : st.pages ⊆ managed
  mapped : ∀ x, 0 < st.mem.mapped st.dirs x → x ∈ managed

section Runs

variable {area : FreeArea} {managed : Finset ℕ} {boot : ℕ → BitVec 64} {st st' : PageState}
  {kind : ℕ → FrameKind} {calls : List PmmCall} {c : Ledger} {word : ℕ → ℕ → BitVec 64}

namespace PageState

theorem Effect.congr {A B : Pick} {call : PageCall} (halike : Alike A B st.mem)
    (h : st.Effect B st' call) : st.Effect A st' call := by
  cases call with
  | pageInsert d page la perm =>
    rw [Effect, pageInsert_congr halike]
    exact h
  | pgdirAllocPage d la perm =>
    rw [Effect, pgdirAllocPage_congr halike]
    exact h
  | _ => exact h

/-- A call over the default allocator is answered with exact counts, and where it gives its pages
back in front of other blocks it leaves the free list in order. -/
theorem Sound.exec (h : st.Sound area managed kind) (hboot : ∀ i < 2, target (boot i) = none)
    {call : PageCall} (hallowed : st.Allowed call) :
    ∃ st' kind', st.exec area.pick boot call = some st' ∧
      Settles st.dirs st'.dirs st.mem kind st'.mem kind' ∧ st.Effect area.pick st' call ∧
      (area.TidyFrees st'.mem.calls → st'.Sound area managed kind') := by
  have halike := FreeArea.alike_source h.stocked
  obtain ⟨st', kind', hexec, hok, hsettles, heffect, hpages, hmapped⟩ :=
    exec_ok (A := area.source) h.toOk hboot hallowed
  rw [← exec_congr halike] at hexec
  have hown : st.pages ∪ st.mem.free ⊆ managed := Finset.union_subset h.pages h.stocked.free_subset
  refine ⟨st', kind', hexec, hsettles, heffect.congr halike, fun htidy ↦
    ⟨hok, ?_, hpages.trans hown, fun x hx ↦ (hmapped x hx).elim (h.mapped x) fun hx ↦ hown hx⟩⟩
  obtain ⟨m, htakes, hgives⟩ := exec_uses hexec
  refine (h.stocked.takes htakes).gives hgives (fun x hx ↦ ?_) htidy
  -- a page that is free afterwards was free before, or its last mapping went
  by_cases hfree : x ∈ st.mem.free
  · exact h.stocked.free_subset hfree
  · exact h.mapped x ((hsettles.free_iff h.page x).mp ⟨hfree, hx⟩).1


end PageState

/-- A run gives its pages back in front of other blocks when all its calls do. -/
theorem DefaultRun.sound (hrun : DefaultRun area boot st st') (h : st.Sound area managed kind)
    (hboot : ∀ i < 2, target (boot i) = none) (htidy : area.TidyFrees st'.mem.calls) :
    ∃ kind', st'.Sound area managed kind' := by
  induction hrun with
  | start => exact ⟨kind, h⟩
  | @step st₁ st₂ call hrun hallowed hstep ih =>
    have hexec := (Option.filter_eq_some_iff.mp hstep).1
    obtain ⟨m, htakes, hgives⟩ := PageState.exec_uses hexec
    obtain ⟨kind₁, h₁⟩ := ih (.of_takes htakes (.of_gives hgives htidy))
    obtain ⟨st₂', kind₂, hexec', -, -, hsound⟩ := h₁.exec hboot hallowed
    rw [hexec] at hexec'
    cases hexec'
    exact ⟨kind₂, hsound htidy⟩

/-- After boot, and whatever pages are out already. -/
theorem PageState.Sound.init
    (harea : defaultPmmManager.Run (PmmCall.Tidy false) npage calls c area)
    (word : ℕ → ℕ → BitVec 64) :
    ∃ kind, (PageState.init word c.free).Sound area c.managed kind := by
  obtain ⟨-, ⟨xs, h⟩, hnpage⟩ := Pmm.manager_run Pmm.searches_default harea
  have hfree : c.free ⊆ c.managed := Finset.sdiff_subset
  have hmapped : ∀ x, ¬ 0 < (PageState.init word c.free).mem.mapped ∅ x := fun x hx ↦ by
    obtain ⟨q, hq, -⟩ := RefCount.uses_pos_iff.mp hx
    exact absurd (Mem.mem_places.mp hq).1 (Finset.notMem_empty _)
  refine ⟨_, PageState.Ok.init fun f hf ↦ ?_, ⟨area, xs, rfl, h.rep, h.cover_free⟩,
    Finset.empty_subset _, fun x hx ↦ absurd hx (hmapped x)⟩
  rw [← hnpage]
  exact h.rep.lt_npage f (hfree hf)

/-- Over the default allocator, in a run whose pages go back into an empty free list or in front of
another block, the reference count of a frame is the number of entries that point to it, and a page
that is free is mapped nowhere; the next call is answered, if it gives its pages back like this, and
has its effect, and a page becomes free in it exactly when its last mapping goes. -/
theorem defaultRun_refs_exact
    (harea : defaultPmmManager.Run (PmmCall.Tidy false) npage calls c area)
    (hboot : ∀ i < 2, target (boot i) = none)
    (hrun : DefaultRun area boot (PageState.init word c.free) st)
    (htidy : area.TidyFrees st.mem.calls) :
    (∀ x, st.mem.ref x = st.mem.mapped st.dirs x + st.mem.tabled st.dirs x) ∧
      (∀ x ∈ st.mem.free, st.mem.ref x = 0 ∧ st.mem.mapped st.dirs x = 0) ∧
      Stocked area c.managed st.mem ∧
      ∀ call, st.Allowed call → ∃ st', st.exec area.pick boot call = some st' ∧
        st.Effect area.pick st' call ∧
        (∀ x, (x ∉ st.mem.free ∧ x ∈ st'.mem.free) ↔
          0 < st.mem.mapped st.dirs x ∧ st'.mem.mapped st'.dirs x = 0) ∧
        (area.TidyFrees st'.mem.calls → st.step area boot call = some st') := by
  obtain ⟨kind₀, h₀⟩ := PageState.Sound.init harea word
  obtain ⟨kind, h⟩ := hrun.sound h₀ hboot htidy
  refine ⟨h.page.ref_eq, fun x hx ↦ ?_, h.stocked, fun call hallowed ↦ ?_⟩
  · have hkind := (h.page.tables.free x).mpr hx
    exact ⟨h.page.ref_free hkind, h.page.mapped_eq_zero (by rw [hkind]; rintro ⟨⟩)⟩
  · obtain ⟨st', kind', hexec, hsettles, heffect, hsound⟩ := h.exec hboot hallowed
    refine ⟨st', hexec, heffect, hsettles.free_iff h.page, fun htidy' ↦ ?_⟩
    obtain ⟨b, -, hafter, -⟩ := (hsound htidy').stocked
    refine Option.filter_eq_some_iff.mpr ⟨hexec, ?_⟩
    rw [hafter, Option.isSome_some]

end Runs

/-! ## Two runs -/

/-- The list after boot, with seven free pages. -/
def sevenPages : Option (Ledger × FreeArea) :=
  defaultPmmManager.follow (PmmCall.Tidy false) [.initMemmap 0x80400 7] (.empty, .boot npage)

/-- A page is mapped twice, and one of the mappings is replaced; another page comes back. -/
def tidyPages : List PageCall :=
  [.setupPgdir, .pgdirAllocPage 0x80400 0x200000 pteUser,
    .pageInsert 0x80400 0x80401 0x201000 pteU, .pgdirAllocPage 0x80400 0x202000 pteUser,
    .pageInsert 0x80400 0x80401 0x202000 pteU, .unmapRange 0x80400 0x201000 0x203000]

theorem defaultRun_refs_exact_sample : ∃ (c : Ledger) (area : FreeArea) (st : PageState),
    sevenPages = some (c, area) ∧
      DefaultRun area (fun _ ↦ 0) (PageState.init (fun _ _ ↦ 0) c.free) st ∧
      area.TidyFrees st.mem.calls ∧ st.mem.ref 0x80401 = 1 ∧
      st.mem.mapped st.dirs 0x80401 + st.mem.tabled st.dirs 0x80401 = 1 := by
  have h : (sevenPages.bind fun a ↦ (PageState.followDefault a.2 (fun _ ↦ 0) tidyPages
      (PageState.init (fun _ _ ↦ 0) a.1.free)).map fun st ↦
        (st.mem.ref 0x80401, decide (a.2.TidyFrees st.mem.calls))) = some (1, true) := by
    decide +kernel
  simp only [Option.bind_eq_some_iff, Option.map_eq_some_iff, Prod.mk.injEq,
    decide_eq_true_eq] at h
  obtain ⟨⟨c, area⟩, hseven, st, hfollow, href, htidy⟩ := h
  have hrun := PageState.run_of_followDefault .start hfollow
  obtain ⟨hrefs, -⟩ := defaultRun_refs_exact (PmmManager.run_of_follow .nil hseven)
    (fun _ _ ↦ rfl) hrun htidy
  refine ⟨c, area, st, hseven, hrun, htidy, href, ?_⟩
  rw [hrefs] at href
  exact_mod_cast href

/-- Four pages are mapped and given back, one of them behind all others; the page comes back twice,
first for the program and then for a page table. -/
def untidyPages : List PageCall :=
  [.allocPage, .allocPage, .allocPage, .allocPage, .setupPgdir,
    .pageInsert 0x80404 0x80400 0x200000 pteU, .pageInsert 0x80404 0x80402 0x201000 pteU,
    .pageInsert 0x80404 0x80403 0x202000 pteU, .pageInsert 0x80404 0x80401 0x203000 pteU,
    .pageRemove 0x80404 0x200000, .pageRemove 0x80404 0x201000, .pageRemove 0x80404 0x202000,
    .pageRemove 0x80404 0x203000, .allocPage, .allocPage,
    .pageInsert 0x80404 0x80402 0x200000 pteU, .pageInsert 0x80404 0x80402 0x201000 pteU,
    .allocPage, .pageInsert 0x80404 0x80400 0x400000 pteU]

/-- The page is mapped at two addresses, and its count is 1. -/
theorem defaultRun_refs_wrong : ∃ (c : Ledger) (area : FreeArea) (st : PageState),
    defaultPmmManager.Run (PmmCall.Tidy false) npage [.initMemmap 0x80400 7] c area ∧
      DefaultRun area (fun _ ↦ 0) (PageState.init (fun _ _ ↦ 0) c.free) st ∧
      st.mem.ref 0x80402 = 1 ∧ 2 ≤ st.mem.mapped st.dirs 0x80402 := by
  have h : (sevenPages.bind fun a ↦ (PageState.followDefault a.2 (fun _ ↦ 0) untidyPages
      (PageState.init (fun _ _ ↦ 0) a.1.free)).map fun st ↦
        (st.mem.ref 0x80402, st.mem.maps (0x80404, 0x200), st.mem.maps (0x80404, 0x201),
          decide (0x80404 ∈ st.dirs))) = some (1, some 0x80402, some 0x80402, true) := by
    decide +kernel
  simp only [Option.bind_eq_some_iff, Option.map_eq_some_iff, Prod.mk.injEq,
    decide_eq_true_eq] at h
  obtain ⟨⟨c, area⟩, hseven, st, hfollow, href, hmaps, hmaps', hdir⟩ := h
  refine ⟨c, area, st, PmmManager.run_of_follow .nil hseven,
    PageState.run_of_followDefault .start hfollow, href, ?_⟩
  have hplace : ∀ n < 524288, (0x80404, n) ∈ Mem.places st.dirs := fun n hn ↦
    Mem.mem_places.mpr ⟨hdir, hn⟩
  refine Finset.one_lt_card.mpr ⟨(0x80404, 0x200), ?_, (0x80404, 0x201), ?_, by decide⟩
  · exact Finset.mem_filter.mpr ⟨hplace _ (by decide), hmaps⟩
  · exact Finset.mem_filter.mpr ⟨hplace _ (by decide), hmaps'⟩

end Ucore
