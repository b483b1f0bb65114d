import Ucore.Mm.FreeAreaRuns

/-!
# Page allocation when memory runs out

`alloc_pages` of `kern/mm/pmm.c` goes to the swap manager when it finds no single page, and the swap
manager works on `check_mm_struct`, which only the checks at boot set. What `swap_out` does with a
victim it got (its page table entry and its disk entry) is a parameter.
-/

namespace Ucore

open Prog Extents

/-- What `_fifo_swap_out_victim` uses of a `struct mm_struct`: whether `sm_priv` is set. -/
structure SwapMm where
  smPriv : Bool

/-- The page allocator and the state of the swap manager. -/
structure PhysMem where
  area : FreeArea
  /-- The pages of `pra_list_head`. -/
  praList : List ℕ
  swapInitOk : Bool
  /-- `check_mm_struct`; `none` is `NULL`. -/
  checkMm : Option SwapMm

namespace PhysMem

/-- Change the page allocator. -/
def setArea (area : FreeArea) (s : PhysMem) : PhysMem := { s with area := area }

/-- The first page leaves `pra_list_head`. -/
def popPra (s : PhysMem) : PhysMem := { s with praList := s.praList.tail }

end PhysMem

/-- `_fifo_swap_out_victim`: the page at the front of the queue. Through a null `mm` it reads
`sm_priv` at an address that no one maps. -/
def fifoSwapOutVictim (mm : Option SwapMm) (inTick : Bool) : Prog Empty PhysMem (Option ℕ) :=
  match mm with
  | none => halt
  | some mm => do
    assert (mm.smPriv = true)
    assert (inTick = false)
    let s ← get
    modify PhysMem.popPra
    pure s.praList.head?

section Swap

variable (evict : Option SwapMm → Option ℕ → Prog Empty PhysMem Unit)

/-- `swap_out` with `n` victims still to go; `evict` writes a victim out and frees its page. -/
def swapOut (mm : Option SwapMm) (inTick : Bool) : ℕ → Prog Empty PhysMem Unit
  | 0 => pure ()
  | n + 1 => do
    let page ← fifoSwapOutVictim mm inTick
    evict mm page
    swapOut mm inTick n

/-- `alloc_pages`, with `fuel` rounds of its loop. -/
def allocPages (M : PmmManager) (n : ℕ) : ℕ → Prog Empty PhysMem (Option ℕ)
  | 0 => halt
  | fuel + 1 => do
    let page ← zoom PhysMem.area PhysMem.setArea (M.allocPages n)
    let s ← get
    if page ≠ none ∨ 1 < n ∨ s.swapInitOk = false then
      pure page
    else do
      swapOut evict s.checkMm false n
      allocPages M n fuel

/-- The call returns, with `NULL` or with `n` pages in a row that were free. -/
def SafeAlloc (M : PmmManager) (c : Ledger) (s : PhysMem) (n fuel : ℕ) : Prop :=
  ∃ page s', (allocPages evict M n fuel).run s = .ok page s' ∧
    ∀ a, page = some a → span (a, n) ⊆ c.free

variable {evict} {calls : List PmmCall} {npage : ℕ} {c : Ledger} {s : PhysMem} {n : ℕ}

theorem not_safeAlloc_of_panic {M : PmmManager} {fuel : ℕ}
    (h : (allocPages evict M n fuel).run s = .panic) : ¬SafeAlloc evict M c s n fuel := by
  rintro ⟨page, s', hrun, -⟩
  rw [h] at hrun
  exact Outcome.ok_ne_panic hrun.symm

/-- Without a free page the loop asks for a victim of no address space. -/
theorem allocPages_null {M : PmmManager} {fuel : ℕ} (hswap : s.swapInitOk = true)
    (hmm : s.checkMm = none) (hrun : (M.allocPages 1).run s.area = .ok none s.area) :
    (allocPages evict M 1 (fuel + 1)).run s = .panic := by
  rw [allocPages, bind_of_ok (zoom_of_ok hrun), get_bind_run]
  have hcond : ¬((none : Option ℕ) ≠ none ∨ 1 < 1 ∨
      (PhysMem.setArea s.area s).swapInitOk = false) := by
    rintro (h | h | h)
    · exact h rfl
    · exact absurd h (lt_irrefl 1)
    · exact Bool.false_ne_true (h.symm.trans hswap)
  rw [if_neg hcond]
  apply bind_of_panic
  have hmm : (PhysMem.setArea s.area s).checkMm = none := hmm
  rw [hmm, swapOut]
  exact bind_of_panic rfl _

/-- After boot, `alloc_pages` is safe for two pages or more, and for one page as long as one is
free; with no page left it reads through a null pointer, and a request for nothing stops it. -/
theorem allocPages_safe_iff
    (hrun : defaultPmmManager.Run (PmmCall.Tidy false) npage calls c s.area)
    (hswap : s.swapInitOk = true) (hmm : s.checkMm = none) (n fuel : ℕ) :
    SafeAlloc evict defaultPmmManager c s n (fuel + 1) ↔ n ≠ 0 ∧ (n = 1 → s.area.nrFree ≠ 0) := by
  obtain ⟨-, ⟨xs, h⟩, -⟩ := Pmm.manager_run Pmm.searches_default hrun
  rcases Nat.eq_zero_or_pos n with rfl | hn
  · refine iff_of_false (not_safeAlloc_of_panic ?_) fun hcond ↦ hcond.1 rfl
    have hpanic : (defaultPmmManager.allocPages 0).run s.area = .panic :=
      assert_bind_run_neg (lt_irrefl 0) _ _
    rw [allocPages]
    exact bind_of_panic (zoom_of_panic hpanic) _
  rcases Pmm.allocPages_run Pmm.searches_default h.rep hn with
    ⟨a, area, ys, halloc, -, -, hsub, -⟩ | ⟨halloc, hfull⟩
  · have halloc : (defaultPmmManager.allocPages n).run s.area = .ok (some a) area := halloc
    refine iff_of_true ⟨some a, s.setArea area, ?_, ?_⟩ ⟨hn.ne', ?_⟩
    · rw [allocPages, bind_of_ok (zoom_of_ok halloc), get_bind_run,
        if_pos (.inl (Option.some_ne_none a))]
      rfl
    · intro b hb
      cases hb
      rw [← h.cover_free]
      exact hsub
    · rintro -
      have hle := Finset.card_le_card hsub
      rw [card_span, ← h.rep.nrFree_eq_card] at hle
      exact Nat.ne_of_gt (lt_of_lt_of_le hn hle)
  · have halloc : (defaultPmmManager.allocPages n).run s.area = .ok none s.area := halloc
    rcases (Nat.succ_le_of_lt hn).eq_or_lt with hone | hmore
    · have hone : n = 1 := hone.symm
      subst hone
      refine iff_of_false (not_safeAlloc_of_panic (allocPages_null hswap hmm halloc)) ?_
      rintro ⟨-, hfree⟩
      -- a free page is a run of one page
      have hpos : 0 < (cover xs).card := by
        rw [← h.rep.nrFree_eq_card]
        exact Nat.pos_of_ne_zero (hfree rfl)
      obtain ⟨p, hp⟩ := Finset.card_pos.mp hpos
      refine hfull p fun q hq ↦ ?_
      rw [mem_span] at hq
      have heq : q = p := by omega
      exact heq ▸ hp
    · refine iff_of_true ⟨none, s.setArea s.area, ?_, fun a ha ↦ absurd ha.symm
        (Option.some_ne_none a)⟩ ⟨hn.ne', fun hone ↦ absurd hone hmore.ne'⟩
      rw [allocPages, bind_of_ok (zoom_of_ok halloc), get_bind_run, if_pos (.inr (.inl hmore))]
      rfl

end Swap

theorem allocPages_safe_iff_sample : ∃ (c : Ledger) (area : FreeArea),
    SafeAlloc (fun _ _ ↦ pure ()) defaultPmmManager c ⟨area, [], true, none⟩ 2 1 := by
  have h : (defaultPmmManager.follow (PmmCall.Tidy false) tidyCalls (.empty, .boot 4)).map
      (fun st ↦ st.2.nrFree) = some 4 := by decide +kernel
  obtain ⟨⟨c, area⟩, hfollow, -⟩ := Option.map_eq_some_iff.mp h
  refine ⟨c, area, (allocPages_safe_iff (PmmManager.run_of_follow .nil hfollow) rfl rfl 2 0).mpr ?_⟩
  exact ⟨by decide, fun h ↦ absurd h (by decide)⟩

/-- The only page is allocated; to ask for another one is not safe, however long the loop runs. -/
theorem allocPages_not_safe_sample : ∃ (c : Ledger) (area : FreeArea),
    defaultPmmManager.Run (PmmCall.Tidy false) 1 [.initMemmap 0 1, .allocPages 1] c area ∧
      ∀ fuel, ¬SafeAlloc (fun _ _ ↦ pure ()) defaultPmmManager c ⟨area, [], true, none⟩ 1 fuel := by
  have h : (defaultPmmManager.follow (PmmCall.Tidy false) [.initMemmap 0 1, .allocPages 1]
      (.empty, .boot 1)).map (fun st ↦ st.2.nrFree) = some 0 := by decide +kernel
  obtain ⟨⟨c, area⟩, hfollow, hfree⟩ := Option.map_eq_some_iff.mp h
  have hlt : area.nrFree < 1 := by
    rw [show area.nrFree = 0 from hfree]
    exact Nat.one_pos
  refine ⟨c, area, PmmManager.run_of_follow .nil hfollow, fun fuel ↦ ?_⟩
  cases fuel with
  | zero => exact not_safeAlloc_of_panic rfl
  | succ fuel =>
    refine not_safeAlloc_of_panic (allocPages_null rfl rfl ?_)
    change (Pmm.allocPages defaultSelect 1).run area = .ok none area
    rw [Pmm.allocPages, assert_bind_run Nat.one_pos, get_bind_run, if_pos hlt]
    rfl

end Ucore
