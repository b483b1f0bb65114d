import Ucore.Lib.Sweep
import Ucore.Mm.ExitRange

/-!
# Address spaces taken down

What `exit_mmap`, `put_pgdir` and `mm_destroy` give back. `unmap_range` leaves empty page tables;
`exit_range` then frees the tables range by range, and gives up a level 0 directory as soon as every
page table of one range in it is there. The pages are all free at the end exactly when that range is
the last one that meets a page table of its region (`takeDown_returns_iff`).

## The areas in turn

With the mappings gone a page table in the range of an area is always freed, unless the directory
above it went before, and the state of a region is a directory that is there or not and a set of
page tables. The areas sweep that set in the order of the list, which is what `Lib.Sweep` is about:
nothing is left exactly when some area meets page tables only, none of which an earlier area meets,
and is the last one to meet any. `Exits` says so of every region that has a directory.
-/

namespace Ucore.AddrSpace

open Prog RefCount

/-! ## Freeing tables -/

section Exit

variable {s t : Mem} {kind : ℕ → FrameKind} {dirs : Finset ℕ} {d f i : ℕ} {w : Levels}

/-- What `exit_range` leaves of empty page tables when its range meets those from `lo` up to `e`. -/
structure RangeStep (lo e : ℕ) (w w' : Levels) : Prop where
  pd0 : ∀ j, j ∈ w'.pd0 ↔ j ∈ w.pd0 ∧ ¬((∃ r, (lo ≤ r ∧ r < e) ∧ r / 512 = j) ∧
    ∀ r, lo ≤ r ∧ r < e → r / 512 = j → r ∈ w.pt)
  pt : ∀ r, r ∈ w'.pt ↔ r ∈ w.pt ∧ ¬(r / 512 ∈ w.pd0 ∧ lo ≤ r ∧ r < e)

/-- A page table that maps no page is empty. -/
theorem emptyPt_of_maps (h₀ : PageOk s kind dirs) (hd : d ∈ dirs)
    (hnone : ∀ n < 524288, s.maps (d, n) = none) {g r : ℕ} (hg : kind g = .pt d r) :
    emptyPt s d r = true := by
  obtain ⟨-, hr⟩ := h₀.tables.pt_dir hg
  apply (emptyPt_iff ((h₀.tables.table_iff (h₀.kind_dir hd) hr).mpr hg)).mpr
  intro k hk
  have hdiv : (512 * r + k) / 512 = r := by omega
  have hmod : (512 * r + k) % 512 = k := by omega
  have hword := h₀.word_eq_pte (n := 512 * r + k) (by rw [hdiv]; exact hg)
  rw [hmod] at hword
  rw [hword]
  exact isValid_eq_false_of_target (hnone (512 * r + k) (by omega))

/-- When all page tables are empty, all those that the range meets go. -/
theorem PruneStep.range {lo e : ℕ} {w w' : Levels} (h : PruneStep s d lo e w w')
    (hempty : ∀ r ∈ w.pt, emptyPt s d r = true) : RangeStep lo e w w' where
  pd0 := h.pd0
  pt r := by
    rw [h.pt]
    refine and_congr_right fun hr ↦ ?_
    simp only [hempty r hr, and_true]

/-- The page tables of the region `i` that an area meets. -/
def Vma.slots (i : ℕ) (v : Vma) : Set ℕ :=
  {r | (v.vmStart / ptSize ≤ r ∧ r < ptEnd v.vmEnd) ∧ r / 512 = i}

/-- Whether the level 0 directory `i` is in place, and the page tables in it that are. -/
def Levels.region (i : ℕ) (w : Levels) : Prop × Set ℕ := (i ∈ w.pd0, {r | r ∈ w.pt ∧ r / 512 = i})

/-- In each region the areas sweep the page tables. -/
theorem RangeStep.region {v : Vma} {w w' : Levels}
    (h : RangeStep (v.vmStart / ptSize) (ptEnd v.vmEnd) w w') (i : ℕ) :
    w'.region i = Sweep.step (w.region i) (v.slots i) := by
  refine Prod.ext (propext ?_) (Set.ext fun r ↦ ?_)
  · refine (h.pd0 i).trans (and_congr_right fun _ ↦ not_congr (and_congr_right fun _ ↦ ?_))
    constructor
    · rintro hall r ⟨hr, hri⟩
      exact ⟨hall r hr hri, hri⟩
    · intro hsub r hr hri
      exact (hsub ⟨hr, hri⟩ : r ∈ {r | r ∈ w.pt ∧ r / 512 = i}).1
  · change r ∈ w'.pt ∧ r / 512 = i ↔ (r ∈ w.pt ∧ r / 512 = i) ∧ ¬(i ∈ w.pd0 ∧ r ∈ v.slots i)
    rw [h.pt]
    constructor
    · rintro ⟨⟨hr, hnot⟩, rfl⟩
      exact ⟨⟨hr, rfl⟩, fun hcon ↦ hnot ⟨hcon.1, hcon.2.1⟩⟩
    · rintro ⟨⟨hr, rfl⟩, hnot⟩
      exact ⟨⟨hr, fun hcon ↦ hnot ⟨hcon.1, hcon.2, rfl⟩⟩, rfl⟩

/-- What a range must be for `unmap_range` and `exit_range`. -/
def Vma.Legal (v : Vma) : Prop :=
  (v.vmStart % pgSize = 0 ∧ v.vmEnd % pgSize = 0) ∧ UserAccess v.vmStart v.vmEnd

/-- The second loop of `exit_mmap`. -/
theorem exitVmas_run (h₀ : PageOk s kind dirs) (hd : d ∈ dirs) {vmas : List Vma}
    (hlegal : ∀ v ∈ vmas, v.Legal) (hnone : ∀ n < 524288, s.maps (d, n) = none)
    (h : Pruned s kind d w t) :
    ∃ t' w', (exitVmas d vmas).run t = .ok () t' ∧ Pruned s kind d w' t' ∧
      ∀ i, w'.region i = (vmas.map (Vma.slots i)).foldl Sweep.step (w.region i) := by
  induction vmas generalizing t w with
  | nil => exact ⟨t, w, rfl, h, fun _ ↦ rfl⟩
  | cons v vmas ih =>
    obtain ⟨halign, huser⟩ := hlegal v List.mem_cons_self
    obtain ⟨t₁, w₁, hrun₁, h₁, hprune⟩ := exitRange_prune h₀ hd halign huser h
    -- nothing is mapped any more, so every page table is empty
    have hstep := hprune.range fun r hr ↦ by
      obtain ⟨g, hg⟩ := h.standing.pt_ex r hr
      exact emptyPt_of_maps h₀ hd hnone hg
    obtain ⟨t', w', hrun, h', hrest⟩ := ih (fun v' hv' ↦ hlegal v' (List.mem_cons_of_mem v hv')) h₁
    refine ⟨t', w', ?_, h', fun i ↦ ?_⟩
    · rw [exitVmas, bind_of_ok hrun₁, hrun]
    · rw [List.map_cons, List.foldl_cons, ← hstep.region, hrest]

/-- The first loop of `exit_mmap`. -/
theorem unmapVmas_run {A : PageSource} {vmas : List Vma} (h₀ : PageOk s kind dirs) (hd : d ∈ dirs)
    (hlegal : ∀ v ∈ vmas, v.Legal) :
    ∃ s' kind', (unmapVmas A d vmas).run s = .ok () s' ∧
      Drop d (fun n ↦ ∃ v ∈ vmas, v.Page n) dirs s kind s' kind' := by
  induction vmas generalizing s kind with
  | nil =>
    refine ⟨s, kind, rfl, .refl h₀ ?_⟩
    rintro n - ⟨v, hv, -⟩
    cases hv
  | cons v vmas ih =>
    obtain ⟨halign, huser⟩ := hlegal v List.mem_cons_self
    obtain ⟨s₁, kind₁, hrun₁, hdrop₁⟩ := unmapRange_run (A := A) h₀ hd halign huser
    obtain ⟨s', kind', hrun, hdrop⟩ := ih hdrop₁.ok fun v' hv' ↦
      hlegal v' (List.mem_cons_of_mem v hv')
    refine ⟨s', kind', ?_, (hdrop₁.trans hd hdrop).mono fun n _ ↦ ?_⟩
    · rw [unmapVmas, bind_of_ok hrun₁, hrun]
    · simp only [List.mem_cons, exists_eq_or_imp]
      exact Iff.rfl

end Exit

/-! ## What is given back -/

/-- The pages that are free when nothing leaks: those that were, the directory, its level 0
directories and page tables, and the pages that no other directory maps. -/
def Returned (s : Mem) (dirs : Finset ℕ) (d x : ℕ) : Prop :=
  x ∈ s.free ∨ x = d ∨ (∃ i < 2, s.table0 d i = some x) ∨ (∃ r < 1024, s.table d r = some x) ∨
    0 < s.mapped {d} x ∧ s.mapped (dirs.erase d) x = 0

/-- In every region that has a level 0 directory, some area finds a page table in all the places it
meets there, none of which an earlier area meets, and such an area is the last to meet a page
table. -/
def Exits (s : Mem) (mm : MmStruct) : Prop :=
  ∀ i < 2, (s.table0 mm.pgdir i).isSome →
    Sweep.Clears {r | (s.table mm.pgdir r).isSome ∧ r / 512 = i} (mm.mmapList.map (Vma.slots i))

section TakeDown

variable {A : PageSource} {s : Vm} {mm : MmStruct} {kind : ℕ → FrameKind} {dirs : Finset ℕ}

/-- Pages that one directory has let go are mapped by the others. -/
theorem mapped_erase {s s' : Mem} {d : ℕ} (hd : d ∈ dirs)
    (hnone : ∀ n < 524288, s'.maps (d, n) = none)
    (hothers : ∀ e ∈ dirs, e ≠ d → ∀ n < 524288, s'.pte e n = s.pte e n) (x : ℕ) :
    s'.mapped dirs x = s.mapped (dirs.erase d) x := by
  have hplaces : Mem.places dirs = Mem.places (dirs.erase d) ∪ {d} ×ˢ Finset.range 524288 := by
    rw [Mem.places, Mem.places, ← Finset.union_product, Finset.union_comm, ← Finset.insert_eq,
      Finset.insert_erase hd]
  rw [Mem.mapped, hplaces, uses_union]
  · refine PageOk.mapped_congr fun e he n hn ↦ ?_
    obtain ⟨hne, he⟩ := Finset.mem_erase.mp he
    exact hothers e he hne n hn
  · intro q hq
    obtain ⟨hq1, hq2⟩ := Finset.mem_product.mp hq
    have hnone' := hnone q.2 (Finset.mem_range.mp hq2)
    rwa [← Finset.mem_singleton.mp hq1] at hnone'

theorem mapped_pos_iff {s : Mem} {d x : ℕ} (hd : d ∈ dirs) (hzero : s.mapped (dirs.erase d) x = 0) :
    0 < s.mapped dirs x ↔ 0 < s.mapped {d} x := by
  rw [Mem.mapped, Mem.mapped, uses_pos_iff, uses_pos_iff]
  constructor
  · rintro ⟨⟨e, n⟩, hq, hx⟩
    obtain ⟨he, hn⟩ := Mem.mem_places.mp hq
    by_cases hed : e = d
    · exact ⟨(e, n), Mem.mem_places.mpr ⟨Finset.mem_singleton.mpr hed, hn⟩, hx⟩
    · have hplace : (e, n) ∈ Mem.places (dirs.erase d) :=
        Mem.mem_places.mpr ⟨Finset.mem_erase.mpr ⟨hed, he⟩, hn⟩
      exact absurd hx (uses_eq_zero_iff.mp hzero _ hplace)
  · rintro ⟨⟨e, n⟩, hq, hx⟩
    obtain ⟨he, hn⟩ := Mem.mem_places.mp hq
    have hed := Finset.mem_singleton.mp he
    exact ⟨(e, n), Mem.mem_places.mpr ⟨hed ▸ hd, hn⟩, hx⟩

theorem kfreeVmas_run (vmas : List Vma) (t : Vm) :
    ∃ t', (kfreeVmas vmas).run t = .ok () t' ∧ t'.mem = t.mem := by
  induction vmas generalizing t with
  | nil => exact ⟨t, rfl, rfl⟩
  | cons v vmas ih =>
    obtain ⟨t', hrun, hmem⟩ := ih { t with live := t.live.erase v.ptr }
    exact ⟨t', hrun, hmem⟩

section Dropped

variable {s s₁ t : Mem} {kind₁ : ℕ → FrameKind} {d i : ℕ} {w : Levels} {P : ℕ → Prop}

/-- What unmapping gives back. -/
theorem drop_free_iff (h : PageOk s kind dirs) (hd : d ∈ dirs)
    (hdrop : Drop d P dirs s kind s₁ kind₁) (hnone : ∀ n < 524288, s₁.maps (d, n) = none) (x : ℕ) :
    kind₁ x = .free ↔ x ∈ s.free ∨ 0 < s.mapped {d} x ∧ s.mapped (dirs.erase d) x = 0 := by
  have hmapped := mapped_erase hd hnone fun e he hne n hn ↦
    hdrop.outside e he n hn fun hcon ↦ hne hcon.1
  have hiff := (Settles.of_drop hdrop).free_iff h x
  rw [hmapped] at hiff
  rw [hdrop.ok.tables.free]
  by_cases hx : x ∈ s.free
  · have hkind := (h.tables.free x).mpr hx
    exact iff_of_true ((hdrop.ok.tables.free x).mp (hdrop.kind_ne hkind (by rintro ⟨⟩))) (.inl hx)
  · constructor
    · intro hx'
      obtain ⟨hpos, hzero⟩ := hiff.mp ⟨hx, hx'⟩
      exact .inr ⟨(mapped_pos_iff hd hzero).mp hpos, hzero⟩
    · rintro (hx' | ⟨hpos, hzero⟩)
      · exact absurd hx' hx
      · exact (hiff.mpr ⟨(mapped_pos_iff hd hzero).mpr hpos, hzero⟩).2

/-- The pages that should be free, by what they are used for after unmapping. -/
theorem returned_iff (h : PageOk s kind dirs) (hd : d ∈ dirs)
    (hdrop : Drop d P dirs s kind s₁ kind₁) (hnone : ∀ n < 524288, s₁.maps (d, n) = none) (x : ℕ) :
    Returned s dirs d x ↔
      kind₁ x = .free ∨ x = d ∨ (∃ i, kind₁ x = .pd0 d i) ∨ ∃ r, kind₁ x = .pt d r := by
  have hdir := h.kind_dir hd
  have hpd0 : (∃ i < 2, s.table0 d i = some x) ↔ ∃ i, kind₁ x = .pd0 d i := by
    constructor
    · rintro ⟨i, hi, hx⟩
      exact ⟨i, hdrop.kind_ne (h.tables.kind_table0 hdir hi hx) (by rintro ⟨⟩)⟩
    · rintro ⟨i, hx⟩
      obtain ⟨-, hi, ht⟩ := h.tables.pd0_up ((hdrop.kind_iff (by rintro ⟨⟩) (by rintro ⟨⟩)).mp hx)
      exact ⟨i, hi, ht⟩
  have hpt : (∃ r < 1024, s.table d r = some x) ↔ ∃ r, kind₁ x = .pt d r := by
    constructor
    · rintro ⟨r, hr, hx⟩
      exact ⟨r, hdrop.kind_ne (h.tables.kind_table hdir hr hx) (by rintro ⟨⟩)⟩
    · rintro ⟨r, hx⟩
      have hkind := (hdrop.kind_iff (by rintro ⟨⟩) (by rintro ⟨⟩)).mp hx
      obtain ⟨-, hr⟩ := h.tables.pt_dir hkind
      exact ⟨r, hr, (h.tables.table_iff hdir hr).mpr hkind⟩
  rw [Returned, hpd0, hpt, drop_free_iff h hd hdrop hnone]
  constructor
  · rintro (hx | hx | hx | hx | hx)
    · exact .inl (.inl hx)
    · exact .inr (.inl hx)
    · exact .inr (.inr (.inl hx))
    · exact .inr (.inr (.inr hx))
    · exact .inl (.inr hx)
  · rintro ((hx | hx) | hx | hx | hx)
    · exact .inl hx
    · exact .inr (.inr (.inr (.inr hx)))
    · exact .inr (.inl hx)
    · exact .inr (.inr (.inl hx))
    · exact .inr (.inr (.inr (.inl hx)))

/-- With the directory itself, everything is free when no table is left. -/
theorem Standing.all_free_iff (h : Standing kind d w t) (hdir : kind d = .dir) :
    (∀ x, x ∈ insert d t.free ↔
      kind x = .free ∨ x = d ∨ (∃ i, kind x = .pd0 d i) ∨ ∃ r, kind x = .pt d r) ↔
      w.pd0 = ∅ ∧ w.pt = ∅ := by
  simp only [Finset.mem_insert, h.free]
  constructor
  · intro hall
    constructor
    · rw [Finset.eq_empty_iff_forall_notMem]
      intro i hi
      obtain ⟨f, hf⟩ := h.pd0_ex i hi
      rcases (hall f).mpr (.inr (.inr (.inl ⟨i, hf⟩))) with rfl | hx
      · rw [hdir] at hf
        cases hf
      · exact h.pd0_notMem_free hf hi ((h.free f).mpr hx)
    · rw [Finset.eq_empty_iff_forall_notMem]
      intro r hr
      obtain ⟨g, hg⟩ := h.pt_ex r hr
      rcases (hall g).mpr (.inr (.inr (.inr ⟨r, hg⟩))) with rfl | hx
      · rw [hdir] at hg
        cases hg
      · exact h.pt_notMem_free hg hr ((h.free g).mpr hx)
  · rintro ⟨hpd0', hpt'⟩ x
    simp only [hpd0', hpt', Finset.notMem_empty, not_false_eq_true, and_true]
    exact or_left_comm

/-- Which pages are free after `exit_mmap` and `put_pgdir`. -/
theorem free_iff_returned (h : PageOk s kind dirs) (hd : d ∈ dirs)
    (hdrop : Drop d P dirs s kind s₁ kind₁) (hnone : ∀ n < 524288, s₁.maps (d, n) = none)
    (hleft : Standing kind₁ d w t) :
    (∀ x, x ∈ insert d t.free ↔ Returned s dirs d x) ↔ w.pd0 = ∅ ∧ w.pt = ∅ := by
  simp only [returned_iff h hd hdrop hnone]
  exact hleft.all_free_iff (hdrop.kind_ne (h.kind_dir hd) (by rintro ⟨⟩))

/-- Unmapping leaves the tables of a region as they are. -/
theorem levels_region (h : PageOk s kind dirs) (hd : d ∈ dirs)
    (hdrop : Drop d P dirs s kind s₁ kind₁) (hi : i < 2) : (levels s₁ d).region i =
      ((s.table0 d i).isSome = true, {r | (s.table d r).isSome ∧ r / 512 = i}) := by
  refine Prod.ext (propext ?_) (Set.ext fun r ↦ ?_)
  · change i ∈ (levels s₁ d).pd0 ↔ _
    rw [mem_levels_pd0 hdrop.ok hd, Option.isSome_iff_exists]
    refine exists_congr fun f ↦ ?_
    rw [h.tables.table0_iff (h.kind_dir hd) hi]
    exact hdrop.kind_iff (by rintro ⟨⟩) (by rintro ⟨⟩)
  · change r ∈ (levels s₁ d).pt ∧ r / 512 = i ↔ _ ∧ r / 512 = i
    refine and_congr_left fun hri ↦ ?_
    have hr : r < 1024 := by omega
    rw [mem_levels_iff hr, hdrop.table h hd hr]

end Dropped

/-- When nothing is left of the tables. -/
theorem exits_iff {s₁ t : Mem} {kind₁ : ℕ → FrameKind} {w : Levels} {P : ℕ → Prop}
    (h : PageOk s.mem kind dirs) (hd : mm.pgdir ∈ dirs)
    (hdrop : Drop mm.pgdir P dirs s.mem kind s₁ kind₁) (hstanding : Standing kind₁ mm.pgdir w t)
    (hregion : ∀ i, w.region i =
      (mm.mmapList.map (Vma.slots i)).foldl Sweep.step ((levels s₁ mm.pgdir).region i)) :
    w.pd0 = ∅ ∧ w.pt = ∅ ↔ Exits s.mem mm := by
  have hok := hdrop.ok
  have hpd0_lt : ∀ i ∈ w.pd0, i < 2 := by
    intro i hi
    obtain ⟨f, hf⟩ := hstanding.pd0_ex i hi
    exact (hok.tables.pd0_up hf).2.1
  have hpt_lt : ∀ r ∈ w.pt, r < 1024 := by
    intro r hr
    obtain ⟨g, hg⟩ := hstanding.pt_ex r hr
    exact (hok.tables.pt_dir hg).2
  have hone : ∀ i < 2, ((s.mem.table0 mm.pgdir i).isSome →
      Sweep.Clears {r | (s.mem.table mm.pgdir r).isSome ∧ r / 512 = i}
        (mm.mmapList.map (Vma.slots i))) ↔ i ∉ w.pd0 ∧ ∀ r ∈ w.pt, r / 512 ≠ i := by
    intro i hi
    have hleft : ((w.region i).2 = ∅) ↔ ∀ r ∈ w.pt, r / 512 ≠ i := by
      rw [Set.eq_empty_iff_forall_notMem]
      exact ⟨fun hr r hmem hri ↦ hr r ⟨hmem, hri⟩, fun hr r hmem ↦ hr r hmem.1 hmem.2⟩
    have hend := hregion i
    rw [levels_region h hd hdrop hi] at hend
    -- without a level 0 directory there is nothing to free
    by_cases hsome : (s.mem.table0 mm.pgdir i).isSome = true
    · rw [eq_true hsome] at hend
      simp only [hsome, true_imp_iff]
      rw [← Sweep.foldl_step_eq_empty_iff, ← hend, hleft]
      exact Iff.rfl
    · rw [eq_false hsome, Sweep.foldl_step_of_over] at hend
      refine iff_of_true (fun hcon ↦ absurd hcon hsome) ⟨?_, ?_⟩
      · intro hi'
        have hfst : (i ∈ w.pd0) = False := congrArg Prod.fst hend
        rwa [hfst] at hi'
      · rw [← hleft, hend]
        change {r | (s.mem.table mm.pgdir r).isSome ∧ r / 512 = i} = ∅
        rw [Set.eq_empty_iff_forall_notMem]
        rintro r ⟨hr, rfl⟩
        rw [Mem.table, Option.not_isSome_iff_eq_none.mp hsome, Option.bind_none] at hr
        cases hr
  constructor
  · rintro ⟨hpd0, hpt⟩ i hi
    refine (hone i hi).mpr ⟨?_, ?_⟩
    · rw [hpd0]
      exact Finset.notMem_empty i
    · intro r hr
      rw [hpt] at hr
      exact absurd hr (Finset.notMem_empty r)
  · intro hexits
    constructor
    · rw [Finset.eq_empty_iff_forall_notMem]
      exact fun i hi ↦ ((hone i (hpd0_lt i hi)).mp (hexits i (hpd0_lt i hi))).1 hi
    · rw [Finset.eq_empty_iff_forall_notMem]
      intro r hr
      have hi : r / 512 < 2 := by
        have hlt := hpt_lt r hr
        omega
      exact ((hone _ hi).mp (hexits _ hi)).2 r hr rfl

/-- Taking an address space down gives every page back exactly when its areas meet the page tables
in the way that `exit_range` expects; nothing is given back twice in any case. -/
theorem takeDown_returns_iff (h : PageOk s.mem kind dirs) (hd : mm.pgdir ∈ dirs)
    (hcount : mm.mmCount = 0) (hlegal : ∀ v ∈ mm.mmapList, v.Legal)
    (hareas : ∀ n < 524288, s.mem.maps (mm.pgdir, n) ≠ none → ∃ v ∈ mm.mmapList, v.Page n) :
    ∃ s', (takeDown A mm).run s = .ok () s' ∧
      ((∀ x, x ∈ s'.mem.free ↔ Returned s.mem dirs mm.pgdir x) ↔ Exits s.mem mm) := by
  obtain ⟨s₁, kind₁, hrun₁, hdrop⟩ := unmapVmas_run (A := A) h hd hlegal
  have hnone : ∀ n < 524288, s₁.maps (mm.pgdir, n) = none := by
    intro n hn
    by_cases hin : ∃ v ∈ mm.mmapList, v.Page n
    · exact hdrop.inside n hn hin
    · rw [Mem.maps, hdrop.outside _ hd n hn fun hcon ↦ hin hcon.2]
      by_contra hmaps
      exact hin (hareas n hn hmaps)
  have hdir₁ := hdrop.ok.kind_dir hd
  obtain ⟨t, w, hrun₂, hpruned, hregion⟩ :=
    exitVmas_run hdrop.ok hd hlegal hnone (.start hdrop.ok hd)
  have hstanding := hpruned.standing
  have hnot : mm.pgdir ∉ t.free := by
    rw [hstanding.free, hdir₁]
    rintro (hx | ⟨i, hx, -⟩ | ⟨r, hx, -⟩) <;> cases hx
  obtain ⟨s', hkfree, hmem⟩ := kfreeVmas_run mm.mmapList { s with mem := t.release mm.pgdir }
  have hexit : (exitMmap A mm).run s = .ok () { s with mem := t } := by
    have hunmap : (onMem (unmapVmas A mm.pgdir mm.mmapList)).run s = .ok () { s with mem := s₁ } :=
      onMem_of_ok hrun₁
    rw [exitMmap, assert_bind_run hcount, bind_of_ok hunmap]
    exact onMem_of_ok hrun₂
  have hput : (putPgdir mm).run { s with mem := t } = .ok () { s with mem := t.release mm.pgdir } :=
    onMem_of_ok (freePage_run hnot)
  refine ⟨{ s' with live := s'.live.erase mm.ptr }, ?_, ?_⟩
  · rw [takeDown, bind_of_ok hexit, bind_of_ok hput, mmDestroy, assert_bind_run hcount,
      bind_of_ok hkfree]
    rfl
  · have hfree := free_iff_returned h hd hdrop hnone hstanding
    rw [hmem, Mem.release_free, hfree]
    exact exits_iff h hd hdrop hstanding hregion

/-- An area that is a page table long. -/
def tableMm : MmStruct := ⟨0, [⟨1, 0x200000, 0x400000, 0⟩], 0x80400, 0⟩

theorem takeDown_returns_iff_sample : ∃ (s s' : Vm) (dirs : Finset ℕ),
    s.mem.table0 0x80400 0 = some 0x80402 ∧ (takeDown lowestPage tableMm).run s = .ok () s' ∧
      ((∀ x, x ∈ s'.mem.free ↔ Returned s.mem dirs 0x80400 x) ↔ Exits s.mem tableMm) := by
  have hcheck : (PageState.follow lowestPage (fun _ ↦ 0) lastPage
      (PageState.init (fun _ _ ↦ 0) (Finset.Icc 0x80400 0x80408))).map (fun st ↦
        decide (0x80400 ∈ st.dirs ∧ st.mem.table0 0x80400 0 = some 0x80402) &&
          (List.range 1024).all fun r ↦ r = 1 ∨ st.mem.table 0x80400 r = none) = some true := by
    decide +kernel
  obtain ⟨st, hfollow, hst⟩ := Option.map_eq_some_iff.mp hcheck
  obtain ⟨hdec, hall⟩ := Bool.and_eq_true_iff.mp hst
  obtain ⟨hdirs, htable0⟩ := of_decide_eq_true hdec
  have htables : ∀ r < 1024, r = 1 ∨ st.mem.table 0x80400 r = none := fun r hr ↦
    of_decide_eq_true (List.all_eq_true.mp hall r (List.mem_range.mpr hr))
  obtain ⟨kind, hok⟩ := (PageState.run_of_follow .start hfollow).ok (by decide) fun _ _ ↦ rfl
  have hlegal : ∀ v ∈ tableMm.mmapList, v.Legal := by
    intro v hv
    rw [List.mem_singleton.mp hv]
    exact ⟨by decide, by decide⟩
  have hareas : ∀ n < 524288, st.mem.maps (0x80400, n) ≠ none →
      ∃ v ∈ tableMm.mmapList, v.Page n := by
    intro n hn hmaps
    refine ⟨_, List.mem_cons_self, ?_⟩
    rcases htables (n / 512) (by omega) with htable | htable
    · simp only [Vma.Page, pgSize]
      omega
    · rw [Mem.maps, Mem.pte_of_no_table htable] at hmaps
      exact absurd target_zero hmaps
  obtain ⟨s', hrun, hiff⟩ := @takeDown_returns_iff lowestPage ⟨st.mem, ∅, 2⟩ tableMm kind st.dirs
    hok.page hdirs rfl hlegal hareas
  exact ⟨⟨st.mem, ∅, 2⟩, s', st.dirs, htable0, hrun, hiff⟩

/-- An area of two pages in two page tables. -/
def acrossMm : MmStruct := ⟨0, [⟨1, 0x3FF000, 0x401000, 0⟩], 0x80400, 0⟩

/-- Whether a page is in use when a routine has returned. -/
def leaves (x : ℕ) : Outcome Errno Vm Unit → Bool
  | .ok () s => decide (x ∉ s.mem.free)
  | _ => false

/-- Only one of the two page tables is there: the level 0 directory, a page that was free before the
directory was set up, is not given back. -/
theorem takeDown_leaks : ∃ s s' : Vm, ∃ st : PageState,
    PageRun lowestPage (fun _ ↦ 0) (PageState.init (fun _ _ ↦ 0) (Finset.Icc 0x80400 0x80408)) st ∧
      s.mem = st.mem ∧ (takeDown lowestPage acrossMm).run s = .ok () s' ∧
      s.mem.table0 0x80400 0 = some 0x80402 ∧ 0x80402 ∉ s'.mem.free ∧
      ¬∀ x, x ∈ s'.mem.free ↔ Returned s.mem st.dirs 0x80400 x := by
  have hcheck : ((PageState.follow lowestPage (fun _ ↦ 0) lastPage
      (PageState.init (fun _ _ ↦ 0) (Finset.Icc 0x80400 0x80408))).map fun st ↦
        decide (st.mem.table0 0x80400 0 = some 0x80402) &&
        leaves 0x80402 ((takeDown lowestPage acrossMm).run ⟨st.mem, ∅, 2⟩)) = some true := by
    decide +kernel
  obtain ⟨st, hfollow, hst⟩ := Option.map_eq_some_iff.mp hcheck
  obtain ⟨hdec, hleak⟩ := Bool.and_eq_true_iff.mp hst
  have htable0 := of_decide_eq_true hdec
  cases hrun : (takeDown lowestPage acrossMm).run ⟨st.mem, ∅, 2⟩ with
  | panic =>
    rw [hrun] at hleak
    cases hleak
  | error e s' =>
    rw [hrun] at hleak
    cases hleak
  | ok u s' =>
    rw [hrun] at hleak
    have hnot : 0x80402 ∉ s'.mem.free := of_decide_eq_true hleak
    refine ⟨⟨st.mem, ∅, 2⟩, s', st, PageState.run_of_follow .start hfollow, rfl, hrun, htable0,
      hnot, fun hall ↦ ?_⟩
    exact hnot ((hall 0x80402).mpr (.inr (.inr (.inl ⟨0, Nat.two_pos, htable0⟩))))

end TakeDown

end Ucore.AddrSpace
