import Ucore.Mm.FreeAreaRuns

/-!
# One call of `best_fit_alloc_pages`

The loop keeps the first of the smallest blocks that it has met, so on a sorted list it answers with
the one that begins lowest. The call then takes the first pages of that block: what is left of it
stands where the block stood, and no other block and no other page descriptor is touched
(`bestFitAllocPages_exact`). Blocks that touch each other are allowed, as `init_memmap` makes them.
-/

namespace Ucore

open Prog Extents

/-! ## Sorted blocks -/

/-- The blocks of a free list over `npage` pages: nonempty, apart, in ascending order. -/
structure InOrder (npage : ℕ) (xs : List (ℕ × ℕ)) : Prop where
  pos : ∀ x ∈ xs, 0 < x.2
  order : xs.Pairwise fun x y ↦ x.1 + x.2 ≤ y.1
  inside : ∀ x ∈ xs, x.1 + x.2 ≤ npage

/-- What is left of a block of `m` pages at `b` without its first `n`. -/
def remainder (b m n : ℕ) : List (ℕ × ℕ) := if n < m then [(b + n, m - n)] else []

section InOrder

variable {npage b m n : ℕ} {xs us vs : List (ℕ × ℕ)}

theorem length_le_of_between {lo hi : ℕ} (hpos : ∀ x ∈ xs, 0 < x.2)
    (horder : xs.Pairwise fun x y ↦ x.1 + x.2 ≤ y.1) (hlo : ∀ x ∈ xs, lo ≤ x.1)
    (hhi : ∀ x ∈ xs, x.1 + x.2 ≤ hi) : xs.length ≤ hi - lo := by
  induction xs generalizing lo with
  | nil => exact Nat.zero_le _
  | cons x xs ih =>
    obtain ⟨hx, hxs⟩ := List.pairwise_cons.mp horder
    have hxpos := hpos x List.mem_cons_self
    have hxlo := hlo x List.mem_cons_self
    have hxhi := hhi x List.mem_cons_self
    have hrest : xs.length ≤ hi - (x.1 + x.2) :=
      ih (fun y hy ↦ hpos y (List.mem_cons_of_mem x hy)) hxs hx
        fun y hy ↦ hhi y (List.mem_cons_of_mem x hy)
    rw [List.length_cons]
    omega

theorem InOrder.length_le (h : InOrder npage xs) : xs.length ≤ npage :=
  length_le_of_between h.pos h.order (fun x _ ↦ Nat.zero_le x.1) h.inside

/-- A block that stands in front of another begins lower. -/
theorem InOrder.lt_of_mem (h : InOrder npage (us ++ (b, m) :: vs)) :
    (∀ u ∈ us, u.1 + u.2 ≤ b) ∧ ∀ v ∈ vs, b + m ≤ v.1 := by
  obtain ⟨-, hbv, hub⟩ := List.pairwise_append.mp h.order
  exact ⟨fun u hu ↦ hub u hu (b, m) List.mem_cons_self,
    fun v hv ↦ (List.pairwise_cons.mp hbv).1 v hv⟩

/-- The remainder stands in its place. -/
theorem InOrder.remainder (h : InOrder npage (us ++ (b, m) :: vs)) :
    InOrder npage (us ++ remainder b m n ++ vs) := by
  obtain ⟨hus, hbv, hub⟩ := List.pairwise_append.mp h.order
  obtain ⟨hb, hvs⟩ := List.pairwise_cons.mp hbv
  have hrest : ∀ x ∈ Ucore.remainder b m n, 0 < x.2 ∧ b ≤ x.1 ∧ x.1 + x.2 ≤ b + m := by
    intro x hx
    rw [Ucore.remainder] at hx
    split_ifs at hx with hlt
    · obtain rfl := List.mem_singleton.mp hx
      dsimp only
      omega
    · exact absurd hx List.not_mem_nil
  have hmem : ∀ x ∈ us ++ vs, x ∈ us ++ (b, m) :: vs := by
    intro x hx
    rcases List.mem_append.mp hx with hu | hv
    · exact List.mem_append_left _ hu
    · exact List.mem_append_right us (List.mem_cons_of_mem _ hv)
  have hself : (b, m) ∈ us ++ (b, m) :: vs := List.mem_append_right us List.mem_cons_self
  have hsplit : ∀ x ∈ us ++ Ucore.remainder b m n ++ vs,
      x ∈ us ++ vs ∨ x ∈ Ucore.remainder b m n := by
    intro x hx
    simp only [List.mem_append] at hx ⊢
    tauto
  constructor
  · intro x hx
    rcases hsplit x hx with hold | hnew
    · exact h.pos x (hmem x hold)
    · exact (hrest x hnew).1
  · rw [List.pairwise_append, List.pairwise_append]
    refine ⟨⟨hus, ?_, fun u hu x hx ↦ ?_⟩, hvs, fun x hx v hv ↦ ?_⟩
    · rw [Ucore.remainder]
      split_ifs
      · exact List.pairwise_singleton _ _
      · exact List.Pairwise.nil
    · exact (hub u hu (b, m) List.mem_cons_self).trans (hrest x hx).2.1
    · rcases List.mem_append.mp hx with hu | hnew
      · exact hub x hu v (List.mem_cons_of_mem _ hv)
      · exact (hrest x hnew).2.2.trans (hb v hv)
  · intro x hx
    rcases hsplit x hx with hold | hnew
    · exact h.inside x (hmem x hold)
    · exact (hrest x hnew).2.2.trans (h.inside (b, m) hself)

end InOrder

namespace Pmm

open FreeArea

variable {s : FreeArea} {xs us vs : List (ℕ × ℕ)} {b m n : ℕ}

/-! ## The search -/

/-- The block `x` is the first of the smallest blocks of at least `n` pages. -/
def Best (xs : List (ℕ × ℕ)) (n : ℕ) (x : ℕ × ℕ) : Prop :=
  ∃ us vs, xs = us ++ x :: vs ∧ n ≤ x.2 ∧ (∀ u ∈ us, n ≤ u.2 → x.2 < u.2) ∧
    ∀ v ∈ vs, n ≤ v.2 → x.2 ≤ v.2

theorem Best.cons {x y : ℕ × ℕ} (h : Best xs n x) (hy : n ≤ y.2 → x.2 < y.2) :
    Best (y :: xs) n x := by
  obtain ⟨us, vs, rfl, hn, hus, hvs⟩ := h
  refine ⟨y :: us, vs, rfl, hn, fun u hu ↦ ?_, hvs⟩
  rcases List.mem_cons.mp hu with rfl | hu
  · exact hy
  · exact hus u hu

/-- The loop stays with the block that it has, or takes the best one of those that are smaller. -/
theorem bestFit_first {fuel minSize : ℕ} {le page : Option ℕ}
    (hchain : s.links.Chain le (nodes xs) none)
    (hsize : ∀ x ∈ xs, (s.page x.1).property = x.2) (hfuel : xs.length < fuel) :
    ∃ ans, (bestFit n fuel le page minSize).run s = .ok ans s ∧
      ((ans = page ∧ ∀ x ∈ xs, n ≤ x.2 → minSize ≤ x.2) ∨
        ∃ x, ans = some x.1 ∧ x.2 < minSize ∧ Best xs n x) := by
  induction xs generalizing fuel le page minSize with
  | nil =>
    obtain ⟨fuel, rfl⟩ := Nat.exists_eq_succ_of_ne_zero (Nat.ne_of_gt hfuel)
    refine ⟨page, ?_, .inl ⟨rfl, fun x hx ↦ absurd hx List.not_mem_nil⟩⟩
    rw [Nat.succ_eq_add_one, bestFit, get_bind_run, FreeArea.listNext, hchain.next_eq]
    rfl
  | cons x xs ih =>
    obtain ⟨fuel, rfl⟩ := Nat.exists_eq_succ_of_ne_zero (Nat.ne_of_gt (Nat.zero_lt_of_lt hfuel))
    have hsize' : ∀ y ∈ xs, (s.page y.1).property = y.2 := fun y hy ↦
      hsize y (List.mem_cons_of_mem x hy)
    rw [Nat.succ_eq_add_one, bestFit, get_bind_run, FreeArea.listNext, hchain.next_eq]
    simp only [nodes_cons, List.headD_cons, hsize x List.mem_cons_self]
    by_cases hx : n ≤ x.2 ∧ x.2 < minSize
    · rw [if_pos hx]
      obtain ⟨ans, hrun, hans⟩ := @ih fuel x.2 _ (some x.1) hchain.2.2 hsize'
        (Nat.lt_of_succ_lt_succ hfuel)
      refine ⟨ans, hrun, .inr ?_⟩
      rcases hans with ⟨rfl, hmin⟩ | ⟨y, rfl, hyx, hbest⟩
      · exact ⟨x, rfl, hx.2, [], xs, rfl, hx.1, fun u hu ↦ absurd hu List.not_mem_nil, hmin⟩
      · exact ⟨y, rfl, hyx.trans hx.2, hbest.cons fun _ ↦ hyx⟩
    · rw [if_neg hx]
      have hskip : n ≤ x.2 → minSize ≤ x.2 := fun hn ↦ not_lt.mp fun hlt ↦ hx ⟨hn, hlt⟩
      obtain ⟨ans, hrun, hans⟩ := @ih fuel minSize _ page hchain.2.2 hsize'
        (Nat.lt_of_succ_lt_succ hfuel)
      refine ⟨ans, hrun, hans.imp ?_ ?_⟩
      · rintro ⟨rfl, hmin⟩
        refine ⟨rfl, ?_⟩
        intro y hy
        rcases List.mem_cons.mp hy with rfl | hy
        · exact hskip
        · exact hmin y hy
      · rintro ⟨y, rfl, hym, hbest⟩
        exact ⟨y, rfl, hym, hbest.cons fun hn ↦ hym.trans_le (hskip hn)⟩

theorem bestFitSelect_best (h : s.Listed xs) (hs : InOrder s.npage xs) (n : ℕ) :
    ∃ ans, (bestFitSelect n).run s = .ok ans s ∧
      ((ans = none ∧ ∀ x ∈ xs, x.2 < n) ∨ ∃ x, ans = some x.1 ∧ Best xs n x) := by
  obtain ⟨ans, hrun, hans⟩ := @bestFit_first s xs n (s.npage + 1) (s.nrFree + 1) none none
    h.ring.chain h.size (Nat.lt_succ_of_le hs.length_le)
  refine ⟨ans, ?_, hans.imp ?_ ?_⟩
  · rw [bestFitSelect, get_bind_run, hrun]
  -- the first bound is `nr_free + 1`, which no block reaches
  · rintro ⟨rfl, hmin⟩
    refine ⟨rfl, fun x hx ↦ not_le.mp fun hle ↦ ?_⟩
    have hlarge := hmin x hx hle
    have hsmall := h.le_nrFree_of_mem hx
    omega
  · rintro ⟨x, rfl, -, hbest⟩
    exact ⟨x, rfl, hbest⟩

/-! ## What the call does -/

/-- The block `(b, m)`, between `us` and `vs`, loses its first `n` pages. -/
structure Carved (s s' : FreeArea) (us vs : List (ℕ × ℕ)) (b m n : ℕ) : Prop where
  listed : s'.Listed (us ++ remainder b m n ++ vs)
  order : InOrder s'.npage (us ++ remainder b m n ++ vs)
  nrFree : s'.nrFree + n = s.nrFree
  npage : s'.npage = s.npage
  /-- The page handed out starts no free block any more. -/
  first : s'.page b = { s.page b with pageProperty := false }
  /-- The remainder starts one. -/
  rest : n < m → s'.page (b + n) = { s.page (b + n) with property := m - n, pageProperty := true }
  /-- The other descriptors are as they were. -/
  others : ∀ p, p ≠ b → (n < m → p ≠ b + n) → s'.page p = s.page p

theorem carve_carved (h : s.Listed (us ++ (b, m) :: vs)) (hs : InOrder s.npage (us ++ (b, m) :: vs))
    (hn : 0 < n) (hnm : n ≤ m) : Carved s (carve b n s) us vs b m n := by
  have hle := h.le_nrFree
  have hne : b ≠ b + n := by omega
  have hsize : ((s.listDel (some b)).page b).property = m := h.size_mem
  have hnpage : (carve b n s).npage = s.npage := by
    rw [carve]
    split_ifs
    · rfl
    · rfl
  have hnr : (carve b n s).nrFree = s.nrFree - n := by
    rw [carve]
    split_ifs
    · rfl
    · rfl
  have horder : InOrder (carve b n s).npage (us ++ remainder b m n ++ vs) := by
    rw [hnpage]
    exact hs.remainder
  obtain ⟨hub, hbv⟩ := hs.lt_of_mem
  refine ⟨?_, horder, by omega, hnpage, ?_, fun hlt ↦ ?_, fun p hp hp' ↦ ?_⟩
  · rcases hnm.lt_or_eq with hlt | rfl
    · rw [remainder, if_pos hlt, List.append_assoc, List.singleton_append]
      apply h.carve hn hlt
      intro x hx heq
      rcases List.mem_append.mp hx with hu | hv
      · have hxb := hub x hu
        omega
      · have hbx := hbv x hv
        omega
    · rw [remainder, if_neg (lt_irrefl n), List.append_nil]
      exact h.carve_all
  · rw [carve]
    simp only [hsize]
    split_ifs
    · simp [listAdd, listDel, Function.update_of_ne hne]
    · simp [listDel]
  · rw [carve]
    simp only [hsize, if_pos hlt]
    simp [listAdd, listDel, Function.update_of_ne hne.symm]
  · rw [carve]
    simp only [hsize]
    split_ifs with hlt
    · simp [listAdd, listDel, hp, hp' hlt]
    · simp [listDel, hp]

/-- **Best fit is exact.** The call answers `NULL` and changes nothing exactly when no block is
large enough; otherwise it carves the pages off the first, hence lowest, of the smallest blocks that
are. -/
theorem bestFitAllocPages_exact (h : s.Listed xs) (hs : InOrder s.npage xs) (hn : 0 < n) :
    ((∀ x ∈ xs, x.2 < n) ∧ (bestFitAllocPages n).run s = .ok none s) ∨
      ∃ us b m vs s', xs = us ++ (b, m) :: vs ∧ n ≤ m ∧
        (∀ y ∈ xs, n ≤ y.2 → m ≤ y.2) ∧ (∀ y ∈ xs, y.2 = m → b ≤ y.1) ∧
        (bestFitAllocPages n).run s = .ok (some b) s' ∧ Carved s s' us vs b m n := by
  rw [bestFitAllocPages, allocPages, assert_bind_run hn, get_bind_run]
  by_cases hfree : s.nrFree < n
  · refine .inl ⟨fun x hx ↦ lt_of_le_of_lt (h.le_nrFree_of_mem hx) hfree, ?_⟩
    rw [if_pos hfree, run_pure]
  rw [if_neg hfree]
  obtain ⟨ans, hrun, ⟨rfl, hnone⟩ | ⟨⟨b, m⟩, rfl, us, vs, rfl, hnm, hus, hvs⟩⟩ :=
    bestFitSelect_best h hs n
  · refine .inl ⟨hnone, ?_⟩
    rw [bind_of_ok hrun]
    rfl
  · dsimp only at hnm hus hvs
    obtain ⟨-, hbv⟩ := hs.lt_of_mem
    refine .inr ⟨us, b, m, vs, carve b n s, rfl, hnm, fun y hy hny ↦ ?_, fun y hy hym ↦ ?_, ?_,
      carve_carved h hs hn hnm⟩
    · rcases List.mem_append.mp hy with hu | hy
      · exact (hus y hu hny).le
      · rcases List.mem_cons.mp hy with rfl | hv
        · exact le_rfl
        · exact hvs y hv hny
    · rcases List.mem_append.mp hy with hu | hy
      · -- a block of that size in front would have been taken
        have hlt := hus y hu (hym ▸ hnm)
        omega
      · rcases List.mem_cons.mp hy with rfl | hv
        · exact le_rfl
        · exact (Nat.le_add_right b m).trans (hbv y hv)
    · rw [bind_of_ok hrun]
      rfl

/-- Three free pages from page 0 and two from page 4. -/
def twoBlocks : FreeArea where
  npage := 8
  page p := if p = 0 then ⟨0, false, true, 3⟩ else if p = 4 then ⟨0, false, true, 2⟩
    else ⟨0, false, false, 0⟩
  links :=
    { next := fun e ↦ if e = none then some 0 else if e = some 0 then some 4 else none
      prev := fun e ↦ if e = none then some 4 else if e = some 4 then some 0 else none }
  nrFree := 5

theorem twoBlocks_listed : twoBlocks.Listed [(0, 3), (4, 2)] where
  ring := ⟨by decide, by simp [nodes, twoBlocks]⟩
  size := by simp [twoBlocks]
  head p := by
    rcases eq_or_ne p 0 with rfl | h0
    · simp [twoBlocks]
    · rcases eq_or_ne p 4 with rfl | h4
      · simp [twoBlocks]
      · simp [twoBlocks, h0, h4, h0.symm, h4.symm]
  nrFree := rfl

/-- Two pages come from the second block, which is smaller. -/
theorem bestFitAllocPages_exact_sample :
    ∃ s', (bestFitAllocPages 2).run twoBlocks = .ok (some 4) s' ∧ s'.Listed [(0, 3)] := by
  have hs : InOrder twoBlocks.npage [(0, 3), (4, 2)] := ⟨by decide, by decide, by decide⟩
  rcases bestFitAllocPages_exact twoBlocks_listed hs Nat.two_pos with
    ⟨hnone, -⟩ | ⟨us, b, m, vs, s', hxs, hnm, hmin, -, hrun, hcarved⟩
  · exact absurd (hnone (0, 3) List.mem_cons_self) (by decide)
  have hm : m ≤ 2 := hmin (4, 2) (List.mem_cons_of_mem _ List.mem_cons_self) le_rfl
  rcases us with _ | ⟨u, _ | ⟨u', us⟩⟩
  · simp only [List.nil_append, List.cons.injEq, Prod.mk.injEq] at hxs
    omega
  · simp only [List.cons_append, List.nil_append, List.cons.injEq, Prod.mk.injEq] at hxs
    obtain ⟨rfl, ⟨rfl, rfl⟩, rfl⟩ := hxs
    exact ⟨s', hrun, hcarved.listed⟩
  · simp at hxs

end Pmm

end Ucore
