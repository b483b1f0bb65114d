import Ucore.Mm.FreeAreaSpec

/-!
# Runs of the page allocators

A run is a sequence of calls in which regions are new, allocations ask for at least one page and
what is freed is a live allocation with its own size. Both managers refine an abstract allocator in
every run in which no new block is put behind the last of several blocks by a loop that goes on
there (`default_run_agrees`, `bestFit_run_refines`).

## The ledger

A `Ledger` keeps what has been handed over and what is out; nothing in it says how free pages are
stored. The abstract allocator only speaks of ledgers: an allocation answers some run of free pages,
or nothing when there is no such run.

## What a run keeps

`Ledger.Agrees c s xs` says that the free list of `s` is the sorted list `xs` of the maximal runs of
free pages, and that free blocks and live allocations are disjoint and make up the managed pages.
The condition on a call, `PmmCall.Tidy`, looks at the state before it. Without it a block is linked
to itself, and a later allocation hands out pages that are not free
(`default_run_hands_out_twice`).
-/

namespace Ucore

open Extents

/-- The pages an allocator was given, and the allocations that are out. -/
structure Ledger where
  managed : Finset ℕ
  live : List (ℕ × ℕ)

/-- A call of one of the routines of an allocator. -/
inductive PmmCall
  | initMemmap (base n : ℕ)
  | allocPages (n : ℕ)
  | freePages (base n : ℕ)

/-! ## The abstract allocator -/

namespace Ledger

/-- Nothing is managed. -/
def empty : Ledger := ⟨∅, []⟩

/-- The pages that are not out. -/
def free (c : Ledger) : Finset ℕ := c.managed \ cover c.live

/-- A region is added. -/
def add (c : Ledger) (base n : ℕ) : Ledger := { c with managed := c.managed ∪ span (base, n) }

/-- An allocation goes out. -/
def give (c : Ledger) (base n : ℕ) : Ledger := { c with live := (base, n) :: c.live }

/-- An allocation comes back. -/
def take (c : Ledger) (base n : ℕ) : Ledger := { c with live := c.live.erase (base, n) }

/-- A step of the abstract allocator. -/
inductive Step (c : Ledger) : PmmCall → Ledger → Prop
  | initMemmap {base n : ℕ} (hn : 0 < n) (hapart : Pmm.Apart c.managed base n) :
    Step c (.initMemmap base n) (c.add base n)
  | allocPages {base n : ℕ} (hn : 0 < n) (hfree : span (base, n) ⊆ c.free) :
    Step c (.allocPages n) (c.give base n)
  | null {n : ℕ} (hn : 0 < n) (hfull : ∀ base, ¬span (base, n) ⊆ c.free) : Step c (.allocPages n) c
  | freePages {base n : ℕ} (hlive : (base, n) ∈ c.live) : Step c (.freePages base n) (c.take base n)

/-- A run of the abstract allocator. -/
inductive Run : List PmmCall → Ledger → Prop
  | nil : Run [] empty
  | snoc {calls : List PmmCall} {call : PmmCall} {c c' : Ledger} (hrun : Run calls c)
    (hstep : c.Step call c') : Run (calls ++ [call]) c'

/-- The abstract allocator hands out no page twice. -/
theorem Run.live_disjoint {calls : List PmmCall} {c : Ledger} (h : Run calls c) :
    c.live.Pairwise fun x y ↦ Disjoint (span x) (span y) := by
  induction h with
  | nil => exact List.Pairwise.nil
  | snoc _ hstep ih =>
    cases hstep with
    | initMemmap _ _ => exact ih
    | null _ _ => exact ih
    | allocPages _ hfree =>
      refine List.pairwise_cons.mpr ⟨?_, ih⟩
      intro y hy
      exact (Finset.sdiff_disjoint.mono_left hfree).mono_right (span_subset_cover hy)
    | freePages _ => exact ih.sublist List.erase_sublist

end Ledger

/-! ## Runs of a manager -/

namespace PmmManager

/-- The manager answers a call; there is no answer when the caller may not ask, and none when the
manager stops the machine. -/
def serve (M : PmmManager) (c : Ledger) (s : FreeArea) : PmmCall → Option (Ledger × FreeArea)
  | .initMemmap base n =>
    if base + n ≤ s.npage ∧ Pmm.Apart c.managed base n then
      match (M.initMemmap base n).run s with
      | .ok _ s' => some (c.add base n, s')
      | _ => none
    else none
  | .allocPages n =>
    match (M.allocPages n).run s with
    | .ok (some base) s' => some (c.give base n, s')
    | .ok none s' => some (c, s')
    | _ => none
  | .freePages base n =>
    if (base, n) ∈ c.live then
      match (M.freePages base n).run s with
      | .ok _ s' => some (c.take base n, s')
      | _ => none
    else none

/-- The calls of a run, each made in a state that satisfies `P`. -/
inductive Run (M : PmmManager) (P : FreeArea → PmmCall → Prop) (npage : ℕ) :
    List PmmCall → Ledger → FreeArea → Prop
  | nil : Run M P npage [] .empty (.boot npage)
  | snoc {calls : List PmmCall} {call : PmmCall} {c c' : Ledger} {s s' : FreeArea}
    (hrun : Run M P npage calls c s) (hP : P s call) (hserve : M.serve c s call = some (c', s')) :
    Run M P npage (calls ++ [call]) c' s'

/-- The calls of a script made one after the other. -/
def follow (M : PmmManager) (P : FreeArea → PmmCall → Prop) [∀ s, DecidablePred (P s)] :
    List PmmCall → Ledger × FreeArea → Option (Ledger × FreeArea)
  | [], st => some st
  | call :: calls, (c, s) => if P s call then (M.serve c s call).bind (follow M P calls) else none

theorem run_of_follow {M : PmmManager} {P : FreeArea → PmmCall → Prop} [∀ s, DecidablePred (P s)]
    {npage : ℕ} {before calls : List PmmCall} {c c' : Ledger} {s s' : FreeArea}
    (hrun : M.Run P npage before c s) (h : M.follow P calls (c, s) = some (c', s')) :
    M.Run P npage (before ++ calls) c' s' := by
  induction calls generalizing before c s with
  | nil =>
    cases h
    rwa [List.append_nil]
  | cons call calls ih =>
    rw [follow] at h
    split_ifs at h with hP
    obtain ⟨⟨c₁, s₁⟩, hserve, hrest⟩ := Option.bind_eq_some_iff.mp h
    rw [List.append_cons]
    exact ih (hrun.snoc hP hserve) hrest

end PmmManager

/-! ## Agreement -/

/-- The free list holds what the ledger says is free: it is the sorted list `xs` of the maximal runs
of free pages, and free blocks and live allocations are disjoint and make up the managed pages. -/
structure Ledger.Agrees (c : Ledger) (s : FreeArea) (xs : List (ℕ × ℕ)) : Prop where
  rep : s.Rep c.managed xs
  disjoint : (xs ++ c.live).Pairwise fun x y ↦ Disjoint (span x) (span y)
  pos : ∀ x ∈ c.live, 0 < x.2
  cover_eq : cover (xs ++ c.live) = c.managed

namespace Ledger.Agrees

variable {c : Ledger} {s s' : FreeArea} {xs ys : List (ℕ × ℕ)} {base n : ℕ}

/-- Extents that are disjoint from each other are disjoint from what the others cover. -/
theorem disjoint_cover {x : ℕ × ℕ} (h : ∀ y ∈ xs, Disjoint (span x) (span y)) :
    Disjoint (span x) (cover xs) := by
  rw [cover, Finset.disjoint_biUnion_right]
  intro y hy
  exact h y (List.mem_toFinset.mp hy)

theorem boot (npage : ℕ) : empty.Agrees (.boot npage) [] where
  rep := .boot npage
  disjoint := List.Pairwise.nil
  pos _ h := absurd h List.not_mem_nil
  cover_eq := rfl

theorem disjoint_live (h : c.Agrees s xs) : Disjoint (cover xs) (cover c.live) := by
  rw [Finset.disjoint_left]
  intro p hp hp'
  obtain ⟨x, hx, hpx⟩ := mem_cover.mp hp
  obtain ⟨y, hy, hpy⟩ := mem_cover.mp hp'
  exact Finset.disjoint_left.mp ((List.pairwise_append.mp h.disjoint).2.2 x hx y hy) hpx hpy

/-- The free list covers exactly what is not out. -/
theorem cover_free (h : c.Agrees s xs) : cover xs = c.free := by
  rw [Ledger.free, ← h.cover_eq, cover_append, Finset.union_sdiff_cancel_right h.disjoint_live]

/-- Gapped lists of blocks may take the place of each other. -/
theorem replace {c' : Ledger} (hrep : s'.Rep c'.managed ys)
    (hlive : c'.live.Pairwise fun x y ↦ Disjoint (span x) (span y)) (hpos : ∀ x ∈ c'.live, 0 < x.2)
    (hdisj : Disjoint (cover ys) (cover c'.live))
    (hcover : cover ys ∪ cover c'.live = c'.managed) : c'.Agrees s' ys where
  rep := hrep
  disjoint := by
    refine List.pairwise_append.mpr ⟨?_, hlive, ?_⟩
    · refine hrep.gapped.gap.imp ?_
      intro x y hlt
      rw [Finset.disjoint_left]
      intro p
      rw [mem_span, mem_span]
      omega
    · intro x hx y hy
      exact hdisj.mono (span_subset_cover hx) (span_subset_cover hy)
  pos := hpos
  cover_eq := by rw [cover_append, hcover]

theorem live_disjoint (h : c.Agrees s xs) :
    c.live.Pairwise fun x y ↦ Disjoint (span x) (span y) :=
  (List.pairwise_append.mp h.disjoint).2.1

theorem live_subset (h : c.Agrees s xs) : cover c.live ⊆ c.managed := by
  rw [← h.cover_eq, cover_append]
  exact Finset.subset_union_right

theorem add (h : c.Agrees s xs) (hapart : Pmm.Apart c.managed base n)
    (hrep : s'.Rep (c.managed ∪ span (base, n)) ys)
    (hcover : cover ys = cover xs ∪ span (base, n)) :
    (c.add base n).Agrees s' ys := by
  have hnew : Disjoint (span (base, n)) (cover c.live) := by
    rw [Finset.disjoint_left]
    intro p hp hp'
    have hfar := hapart p (h.live_subset hp')
    rw [mem_span] at hp
    simp only at hp
    omega
  refine replace hrep h.live_disjoint h.pos ?_ ?_
  · rw [hcover]
    exact Finset.disjoint_union_left.mpr ⟨h.disjoint_live, hnew⟩
  · have hold := h.cover_eq
    rw [cover_append] at hold
    rw [hcover, Finset.union_right_comm, Ledger.add, hold]

theorem give (h : c.Agrees s xs) (hn : 0 < n) (hrep : s'.Rep c.managed ys)
    (hsub : span (base, n) ⊆ cover xs) (hcover : cover ys = cover xs \ span (base, n)) :
    (c.give base n).Agrees s' ys := by
  have hout : Disjoint (span (base, n)) (cover c.live) := h.disjoint_live.mono_left hsub
  refine replace hrep ?_ ?_ ?_ ?_
  · refine List.pairwise_cons.mpr ⟨?_, h.live_disjoint⟩
    intro y hy
    exact hout.mono_right (span_subset_cover hy)
  · intro x hx
    rcases List.mem_cons.mp hx with rfl | hx
    · exact hn
    · exact h.pos x hx
  · rw [hcover, Ledger.give, cover_cons]
    exact Finset.disjoint_union_right.mpr ⟨Finset.sdiff_disjoint,
      h.disjoint_live.mono_left Finset.sdiff_subset⟩
  · have hold := h.cover_eq
    rw [cover_append] at hold
    rw [hcover, Ledger.give, cover_cons, ← Finset.union_assoc, Finset.sdiff_union_of_subset hsub,
      hold]

/-- What a live allocation covers, apart from the other ones. -/
theorem cover_erase (h : c.Agrees s xs) (hlive : (base, n) ∈ c.live) :
    Disjoint (span (base, n)) (cover (c.live.erase (base, n))) ∧
      span (base, n) ∪ cover (c.live.erase (base, n)) = cover c.live := by
  have hperm := List.perm_cons_erase hlive
  have hsymm : ∀ x y : ℕ × ℕ, Disjoint (span x) (span y) → Disjoint (span y) (span x) :=
    fun _ _ h ↦ h.symm
  have hpair := (hperm.pairwise_iff fun {x y} ↦ hsymm x y).mp h.live_disjoint
  refine ⟨disjoint_cover (List.pairwise_cons.mp hpair).1, ?_⟩
  rw [← cover_cons, cover, cover, List.toFinset_eq_of_perm _ _ hperm]

theorem take (h : c.Agrees s xs) (hlive : (base, n) ∈ c.live) (hrep : s'.Rep c.managed ys)
    (hcover : cover ys = cover xs ∪ span (base, n)) : (c.take base n).Agrees s' ys := by
  obtain ⟨hdisj, hunion⟩ := h.cover_erase hlive
  refine replace hrep (h.live_disjoint.sublist List.erase_sublist) ?_ ?_ ?_
  · intro x hx
    exact h.pos x (List.mem_of_mem_erase hx)
  · rw [hcover]
    refine Finset.disjoint_union_left.mpr ⟨h.disjoint_live.mono_right ?_, hdisj⟩
    rw [← hunion]
    exact Finset.subset_union_right
  · have hold := h.cover_eq
    rw [cover_append, ← hunion, ← Finset.union_assoc] at hold
    rw [hcover, Ledger.take, hold]

/-- What is freed lies in the managed pages, outside the free ones. -/
theorem release (h : c.Agrees s xs) (hlive : (base, n) ∈ c.live) :
    0 < n ∧ span (base, n) ⊆ c.managed ∧ Disjoint (span (base, n)) (cover xs) :=
  ⟨h.pos _ hlive, (span_subset_cover hlive).trans h.live_subset,
    (h.disjoint_live.mono_right (span_subset_cover hlive)).symm⟩

end Ledger.Agrees

/-! ## Runs refine the abstract allocator -/

/-- The managers share their routines and differ in the search and in whether the insertion of a
region leaves its loop at the end. -/
def Pmm.manager (initBreak : Bool) (select : ℕ → Pmm (Option ℕ)) : PmmManager where
  initMemmap := Pmm.initMemmap initBreak
  allocPages := Pmm.allocPages select
  freePages := Pmm.freePages false

/-- A new block goes into an empty list or in front of another block; only the regions of a manager
that leaves the loop may go behind all others. -/
def PmmCall.Tidy (initBreak : Bool) (s : FreeArea) : PmmCall → Prop
  | .initMemmap base _ => Pmm.Clear initBreak base s
  | .allocPages _ => True
  | .freePages base _ => Pmm.Clear false base s

instance (initBreak : Bool) (s : FreeArea) : DecidablePred (PmmCall.Tidy initBreak s) := fun call ↦
  match call with
  | .initMemmap base _ => inferInstanceAs (Decidable (Pmm.Clear initBreak base s))
  | .allocPages _ => isTrue trivial
  | .freePages base _ => inferInstanceAs (Decidable (Pmm.Clear false base s))

/-- What a caller may ask for. -/
def PmmCall.Allowed (c : Ledger) (s : FreeArea) : PmmCall → Prop
  | .initMemmap base n => 0 < n ∧ base + n ≤ s.npage ∧ Pmm.Apart c.managed base n
  | .allocPages n => 0 < n
  | .freePages base n => (base, n) ∈ c.live

namespace Pmm

variable {initBreak : Bool} {select : ℕ → Pmm (Option ℕ)} {c c' : Ledger} {s s' : FreeArea}
  {xs : List (ℕ × ℕ)} {call : PmmCall} {npage : ℕ} {calls : List PmmCall}

/-- A call that may be made is answered, as the abstract allocator answers it. -/
theorem manager_serve (hselect : Searches select) (h : c.Agrees s xs)
    (hallowed : call.Allowed c s) (htidy : call.Tidy initBreak s) :
    ∃ c' s' ys, (manager initBreak select).serve c s call = some (c', s') ∧ c.Step call c' ∧
      c'.Agrees s' ys ∧ s'.npage = s.npage := by
  cases call with
  | initMemmap base n =>
    obtain ⟨hn, hlt, hapart⟩ := hallowed
    obtain ⟨s', ys, hrun, hrep, hnpage, hcover⟩ := initMemmap_run h.rep hn hlt hapart htidy
    refine ⟨c.add base n, s', ys, ?_, .initMemmap hn hapart, h.add hapart hrep hcover, hnpage⟩
    rw [PmmManager.serve, if_pos ⟨hlt, hapart⟩]
    simp only [manager, hrun]
  | allocPages n =>
    have hn : 0 < n := hallowed
    rcases allocPages_run hselect h.rep hn with
      ⟨a, s', ys, hrun, hrep, hnpage, hsub, hcover⟩ | ⟨hrun, hfull⟩
    · refine ⟨c.give a n, s', ys, ?_, .allocPages hn (h.cover_free ▸ hsub),
        h.give hn hrep hsub hcover, hnpage⟩
      simp only [PmmManager.serve, manager, hrun]
    · refine ⟨c, s, xs, ?_, .null hn (h.cover_free ▸ hfull), h, rfl⟩
      simp only [PmmManager.serve, manager, hrun]
  | freePages base n =>
    have hlive : (base, n) ∈ c.live := hallowed
    obtain ⟨hn, hsub, hdisj⟩ := h.release hlive
    obtain ⟨s', ys, hrun, hrep, hnpage, hcover⟩ := freePages_run h.rep hn hsub hdisj htidy
    refine ⟨c.take base n, s', ys, ?_, .freePages hlive, h.take hlive hrep hcover, hnpage⟩
    rw [PmmManager.serve, if_pos hlive]
    simp only [manager, hrun]

/-- A call that was answered was one that may be made. -/
theorem allowed_of_serve (h : (manager initBreak select).serve c s call = some (c', s')) :
    call.Allowed c s := by
  cases call with
  | initMemmap base n =>
    rw [PmmManager.serve] at h
    split_ifs at h with hcond
    refine ⟨?_, hcond⟩
    by_contra hn
    simp only [manager, initMemmap, Prog.assert_bind_run_neg hn, reduceCtorEq] at h
  | allocPages n =>
    by_contra hn
    have hn : ¬0 < n := hn
    simp only [PmmManager.serve, manager, allocPages, Prog.assert_bind_run_neg hn,
      reduceCtorEq] at h
  | freePages base n =>
    rw [PmmManager.serve] at h
    split_ifs at h with hlive
    exact hlive

/-- A run whose new blocks go where the loops can handle them is a run of the abstract allocator,
and in the state it reaches the free list agrees with the ledger. -/
theorem manager_run (hselect : Searches select)
    (hrun : (manager initBreak select).Run (PmmCall.Tidy initBreak) npage calls c s) :
    Ledger.Run calls c ∧ (∃ xs, c.Agrees s xs) ∧ s.npage = npage := by
  induction hrun with
  | nil => exact ⟨.nil, ⟨[], .boot npage⟩, rfl⟩
  | snoc _ htidy hserve ih =>
    obtain ⟨habstract, ⟨xs, hagrees⟩, hnpage⟩ := ih
    obtain ⟨c', s', ys, hserve', hstep, hagrees', hsame⟩ :=
      manager_serve hselect hagrees (allowed_of_serve hserve) htidy
    rw [hserve] at hserve'
    cases hserve'
    exact ⟨habstract.snoc hstep, ⟨ys, hagrees'⟩, hsame.trans hnpage⟩

end Pmm

/-! ## First fit -/

section Default

variable {npage : ℕ} {calls : List PmmCall} {c : Ledger} {s : FreeArea}

/-- The default allocator hands out no page twice: after a run whose new blocks go into an empty
list or in front of another block, the free list is a well-formed list of blocks in ascending order
that do not touch, `nr_free` is the sum of their sizes, and together with the live allocations they
partition the managed pages; and every call that may come next is answered. -/
theorem default_run_agrees
    (hrun : defaultPmmManager.Run (PmmCall.Tidy false) npage calls c s) :
    ∃ xs : List (ℕ × ℕ), s.links.Ring none (nodes xs) ∧
      (∀ x ∈ xs, (s.page x.1).property = x.2) ∧ Gapped xs ∧ s.nrFree = (xs.map Prod.snd).sum ∧
      (xs ++ c.live).Pairwise (fun x y ↦ Disjoint (span x) (span y)) ∧
      cover (xs ++ c.live) = c.managed ∧
      ∀ call : PmmCall, call.Allowed c s → call.Tidy false s →
        ∃ st, defaultPmmManager.serve c s call = some st := by
  obtain ⟨-, ⟨xs, h⟩, -⟩ := Pmm.manager_run Pmm.searches_default hrun
  refine ⟨xs, h.rep.ring, h.rep.size, h.rep.gapped, h.rep.nrFree, h.disjoint, h.cover_eq, ?_⟩
  intro call hallowed htidy
  obtain ⟨c', s', -, hserve, -⟩ := Pmm.manager_serve Pmm.searches_default h hallowed htidy
  exact ⟨(c', s'), hserve⟩

end Default

/-- A page is allocated from a region, and freed in front of the rest. -/
def tidyCalls : List PmmCall := [.initMemmap 0 4, .allocPages 1, .freePages 0 1]

theorem default_run_agrees_sample : ∃ (c : Ledger) (s : FreeArea) (xs : List (ℕ × ℕ)),
    s.nrFree = 4 ∧ s.links.Ring none (nodes xs) ∧ Gapped xs ∧
      s.nrFree = (xs.map Prod.snd).sum ∧ cover (xs ++ c.live) = c.managed := by
  have h : (defaultPmmManager.follow (PmmCall.Tidy false) tidyCalls (.empty, .boot 4)).map
      (fun st ↦ st.2.nrFree) = some 4 := by decide +kernel
  obtain ⟨⟨c, s⟩, hfollow, hfree⟩ := Option.map_eq_some_iff.mp h
  obtain ⟨xs, hring, -, hgapped, hsum, -, hcover, -⟩ :=
    default_run_agrees (PmmManager.run_of_follow .nil hfollow)
  exact ⟨c, s, xs, hfree, hring, hgapped, hsum, hcover⟩

/-- Two single pages and then a block of two are freed in ascending order; two pages are then
allocated twice. -/
def ascendingFrees : List PmmCall :=
  [.initMemmap 0 6, .allocPages 1, .allocPages 1, .allocPages 1, .allocPages 1, .allocPages 2,
    .freePages 0 1, .freePages 2 1, .freePages 4 2, .allocPages 2, .allocPages 2]

/-- Live allocations that share a page are not disjoint. -/
theorem not_pairwise_disjoint {c : Ledger} {base n : ℕ} {rest : List (ℕ × ℕ)} (hn : 0 < n)
    (h : c.live = (base, n) :: (base, n) :: rest) (xs : List (ℕ × ℕ)) :
    ¬(xs ++ c.live).Pairwise fun x y ↦ Disjoint (span x) (span y) := by
  intro hpair
  rw [h] at hpair
  have hlive := (List.pairwise_append.mp hpair).2.1
  have hdisj := (List.pairwise_cons.mp hlive).1 (base, n) List.mem_cons_self
  have hmem : base ∈ span (base, n) := start_mem_span (x := (base, n)) hn
  exact Finset.disjoint_left.mp hdisj hmem hmem

/-- The block freed last is put behind the others, its link to the one in front of it is its own,
and so it cannot be taken out of the list: it is handed out twice. -/
theorem default_run_hands_out_twice : ∃ (c : Ledger) (s : FreeArea),
    defaultPmmManager.Run (fun _ _ ↦ True) 6 ascendingFrees c s ∧
      c.live = [(4, 2), (4, 2), (3, 1), (1, 1)] ∧
      ¬∃ xs : List (ℕ × ℕ), (xs ++ c.live).Pairwise fun x y ↦ Disjoint (span x) (span y) := by
  have h : (defaultPmmManager.follow (fun _ _ ↦ True) ascendingFrees (.empty, .boot 6)).map
      (fun st ↦ st.1.live) = some [(4, 2), (4, 2), (3, 1), (1, 1)] := by decide +kernel
  obtain ⟨⟨c, s⟩, hfollow, hlive⟩ := Option.map_eq_some_iff.mp h
  refine ⟨c, s, PmmManager.run_of_follow .nil hfollow, hlive, ?_⟩
  rintro ⟨xs, hpair⟩
  exact not_pairwise_disjoint (by decide) hlive xs hpair

/-! ## Best fit -/

section BestFit

variable {npage : ℕ} {calls : List PmmCall} {c : Ledger} {s : FreeArea}

/-- The best-fit allocator refines the abstract one: a run in which every freed block goes into an
empty list or in front of another block is a run of the abstract allocator, and the free list then
is the sorted list of the maximal runs of pages that are not out; every call that may come next is
answered, by a step of the abstract allocator. -/
theorem bestFit_run_refines
    (hrun : bestFitPmmManager.Run (PmmCall.Tidy true) npage calls c s) :
    Ledger.Run calls c ∧
    (∃ xs : List (ℕ × ℕ), s.links.Ring none (nodes xs) ∧
      (∀ x ∈ xs, (s.page x.1).property = x.2) ∧
      (∀ p, (s.page p).pageProperty = true ↔ ∃ x ∈ xs, x.1 = p) ∧ Gapped xs ∧
      s.nrFree = (xs.map Prod.snd).sum ∧ cover xs = c.managed \ cover c.live) ∧
    c.live.Pairwise (fun x y ↦ Disjoint (span x) (span y)) ∧
    ∀ call : PmmCall, call.Allowed c s → call.Tidy true s →
      ∃ c' s', bestFitPmmManager.serve c s call = some (c', s') ∧ c.Step call c' := by
  obtain ⟨habstract, ⟨xs, h⟩, -⟩ := Pmm.manager_run Pmm.searches_bestFit hrun
  refine ⟨habstract, ⟨xs, h.rep.ring, h.rep.size, h.rep.head, h.rep.gapped, h.rep.nrFree,
    h.cover_free⟩, h.live_disjoint, ?_⟩
  intro call hallowed htidy
  obtain ⟨c', s', -, hserve, hstep, -⟩ := Pmm.manager_serve Pmm.searches_bestFit h hallowed htidy
  exact ⟨c', s', hserve, hstep⟩

end BestFit

theorem bestFit_run_refines_sample : ∃ (c : Ledger) (s : FreeArea) (xs : List (ℕ × ℕ)),
    s.nrFree = 4 ∧ Ledger.Run tidyCalls c ∧ s.links.Ring none (nodes xs) ∧ Gapped xs ∧
      cover xs = c.managed \ cover c.live := by
  have h : (bestFitPmmManager.follow (PmmCall.Tidy true) tidyCalls (.empty, .boot 4)).map
      (fun st ↦ st.2.nrFree) = some 4 := by decide +kernel
  obtain ⟨⟨c, s⟩, hfollow, hfree⟩ := Option.map_eq_some_iff.mp h
  obtain ⟨habstract, ⟨xs, hring, -, -, hgapped, -, hcover⟩, -⟩ :=
    bestFit_run_refines (PmmManager.run_of_follow .nil hfollow)
  exact ⟨c, s, xs, hfree, habstract, hring, hgapped, hcover⟩

/-- The same calls get the best-fit allocator to hand out a block twice. -/
theorem bestFit_run_hands_out_twice : ∃ (c : Ledger) (s : FreeArea),
    bestFitPmmManager.Run (fun _ _ ↦ True) 6 ascendingFrees c s ∧
      c.live = [(4, 2), (4, 2), (3, 1), (1, 1)] ∧ ¬Ledger.Run ascendingFrees c ∧
      ¬c.live.Pairwise fun x y ↦ Disjoint (span x) (span y) := by
  have h : (bestFitPmmManager.follow (fun _ _ ↦ True) ascendingFrees (.empty, .boot 6)).map
      (fun st ↦ st.1.live) = some [(4, 2), (4, 2), (3, 1), (1, 1)] := by decide +kernel
  obtain ⟨⟨c, s⟩, hfollow, hlive⟩ := Option.map_eq_some_iff.mp h
  have hpair := not_pairwise_disjoint (by decide) hlive []
  refine ⟨c, s, PmmManager.run_of_follow .nil hfollow, hlive, ?_, hpair⟩
  intro habstract
  exact hpair habstract.live_disjoint

end Ucore
