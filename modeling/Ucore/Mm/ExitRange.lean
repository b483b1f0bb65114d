import Ucore.Mm.AddrSpace
import Ucore.Mm.PageRuns

/-!
# Which tables `exit_range` frees

`exit_range` on any directory, with mappings left outside the range. The page tables that the range
meets are freed exactly when they are empty. A level 0 directory is freed exactly when all entries
that the range meets were there before, whatever became of them and whatever the other entries are:
the flag is only cleared by an entry that is not there. So it frees what it should exactly when the
two tests agree (`exitRange_exact_iff`).

## The loop

Which tables of the directory are in place is a pair of finite sets, `Levels`. `Standing` says that
memory has just these, each where its place asks for it, and that the others are free; `Pruned` adds
that only the directory and its level 0 directories were written. Inside a level 0 directory the
loop takes one page table after the other, and then goes on with the next level 0 directory. What a
whole call leaves of the pair is `PruneStep`, and what it should leave is `ExitExact`, which speaks
of memory alone; the two are compared at the end.
-/

namespace Ucore.AddrSpace

open Prog RefCount

/-! ## The tables that are left -/

/-- The level 0 directories and page tables of a directory that are still in place. -/
structure Levels where
  pd0 : Finset ℕ
  pt : Finset ℕ

/-- The tables of the directory `d` in the memory `t`, where those of `w` are left and the others
are free. -/
structure Standing (kind : ℕ → FrameKind) (d : ℕ) (w : Levels) (t : Mem) : Prop where
  dir : ∀ i < 2, ∀ f, target (t.word d i) = some f ↔ i ∈ w.pd0 ∧ kind f = .pd0 d i
  entry : ∀ {f i}, kind f = .pd0 d i → i ∈ w.pd0 → ∀ j < 512, ∀ g,
    target (t.word f j) = some g ↔ 512 * i + j ∈ w.pt ∧ kind g = .pt d (512 * i + j)
  free : ∀ x, x ∈ t.free ↔ kind x = .free ∨ (∃ i, kind x = .pd0 d i ∧ i ∉ w.pd0) ∨
    ∃ r, kind x = .pt d r ∧ r ∉ w.pt
  pd0_ex : ∀ i ∈ w.pd0, ∃ f, kind f = .pd0 d i
  pt_ex : ∀ r ∈ w.pt, ∃ g, kind g = .pt d r

section Standing

variable {s t : Mem} {kind : ℕ → FrameKind} {dirs : Finset ℕ} {d f i : ℕ} {w : Levels}

/-- The tables that are there. -/
def levels (s : Mem) (d : ℕ) : Levels where
  pd0 := (Finset.range 2).filter fun i ↦ (s.table0 d i).isSome
  pt := (Finset.range 1024).filter fun r ↦ (s.table d r).isSome

theorem mem_levels_pd0 (h : PageOk s kind dirs) (hd : d ∈ dirs) :
    i ∈ (levels s d).pd0 ↔ ∃ f, kind f = .pd0 d i := by
  rw [levels, Finset.mem_filter, Finset.mem_range, Option.isSome_iff_exists]
  constructor
  · rintro ⟨hi, f, hf⟩
    exact ⟨f, h.tables.kind_table0 (h.kind_dir hd) hi hf⟩
  · rintro ⟨f, hf⟩
    obtain ⟨-, hi, ht⟩ := h.tables.pd0_up hf
    exact ⟨hi, f, ht⟩

theorem mem_levels_pt (h : PageOk s kind dirs) (hd : d ∈ dirs) {r : ℕ} :
    r ∈ (levels s d).pt ↔ ∃ g, kind g = .pt d r := by
  rw [levels, Finset.mem_filter, Finset.mem_range, Option.isSome_iff_exists]
  constructor
  · rintro ⟨hr, g, hg⟩
    exact ⟨g, h.tables.kind_table (h.kind_dir hd) hr hg⟩
  · rintro ⟨g, hg⟩
    obtain ⟨-, hr⟩ := h.tables.pt_dir hg
    exact ⟨hr, g, (h.tables.table_iff (h.kind_dir hd) hr).mpr hg⟩

/-- Before anything is freed. -/
theorem Standing.start (h : PageOk s kind dirs) (hd : d ∈ dirs) :
    Standing kind d (levels s d) s where
  dir i hi f := by
    rw [mem_levels_pd0 h hd]
    constructor
    · intro hf
      have hkind := h.tables.kind_table0 (h.kind_dir hd) hi hf
      exact ⟨⟨f, hkind⟩, hkind⟩
    · rintro ⟨-, hf⟩
      exact (h.tables.pd0_up hf).2.2
  entry {f i} hf hi j hj g := by
    rw [mem_levels_pt h hd]
    constructor
    · intro hg
      have hkind := h.tables.entry_pd0 hf hj hg
      exact ⟨⟨g, hkind⟩, hkind⟩
    · rintro ⟨-, hg⟩
      obtain ⟨f', hf', ht⟩ := h.tables.pt_up hg
      have hdiv : (512 * i + j) / 512 = i := by omega
      have hmod : (512 * i + j) % 512 = j := by omega
      rw [hdiv] at hf'
      rw [hmod] at ht
      have hup := (h.tables.pd0_up hf).2.2
      rw [(h.tables.pd0_up hf').2.2] at hup
      cases hup
      exact ht
  free x := by
    rw [← h.tables.free]
    refine ⟨.inl, ?_⟩
    rintro (hx | ⟨i, hx, hi⟩ | ⟨r, hx, hr⟩)
    · exact hx
    · exact absurd ((mem_levels_pd0 h hd).mpr ⟨x, hx⟩) hi
    · exact absurd ((mem_levels_pt h hd).mpr ⟨x, hx⟩) hr
  pd0_ex i hi := (mem_levels_pd0 h hd).mp hi
  pt_ex r hr := (mem_levels_pt h hd).mp hr

/-- A table that is in place is not free. -/
theorem Standing.pt_notMem_free (h : Standing kind d w t) {g r : ℕ} (hg : kind g = .pt d r)
    (hr : r ∈ w.pt) : g ∉ t.free := by
  rw [h.free, hg]
  rintro (hx | ⟨i, hx, -⟩ | ⟨r', hx, hr'⟩)
  · cases hx
  · cases hx
  · cases hx
    exact hr' hr

theorem Standing.pd0_notMem_free (h : Standing kind d w t) (hf : kind f = .pd0 d i)
    (hi : i ∈ w.pd0) : f ∉ t.free := by
  rw [h.free, hf]
  rintro (hx | ⟨i', hx, hi'⟩ | ⟨r, hx, -⟩)
  · cases hx
  · cases hx
    exact hi' hi
  · cases hx

/-- The level 0 directories in `S` lead to the page tables in `pt`. -/
def Entries (kind : ℕ → FrameKind) (d : ℕ) (S : Set ℕ) (pt : Finset ℕ) (t : Mem) : Prop :=
  ∀ f i, kind f = .pd0 d i → i ∈ S → ∀ j < 512, ∀ g,
    target (t.word f j) = some g ↔ 512 * i + j ∈ pt ∧ kind g = .pt d (512 * i + j)

theorem Entries.erase_pt {S : Set ℕ} {pt : Finset ℕ} (h₀ : PageOk s kind dirs)
    (h : Entries kind d S pt t) {r : ℕ} (g : ℕ) (hf : kind f = .pd0 d (r / 512)) :
    Entries kind d S (pt.erase r) ((t.release g).setWord f (r % 512) 0) := by
  intro f' i' hf' hi' j hj g'
  rw [Finset.mem_erase]
  by_cases hsame : f' = f ∧ j = r % 512
  · obtain ⟨rfl, rfl⟩ := hsame
    rw [hf] at hf'
    cases hf'
    have hr : 512 * (r / 512) + r % 512 = r := Nat.div_add_mod r 512
    rw [Mem.setWord_self, target_zero, hr]
    exact iff_of_false (Option.some_ne_none g').symm fun hcon ↦ hcon.1.1 rfl
  · have hslot : f' ≠ f ∨ j ≠ r % 512 := by tauto
    have hne : 512 * i' + j ≠ r := by
      intro heq
      have hi'' : i' = r / 512 := by omega
      subst hi''
      have hup := (h₀.tables.pd0_up hf').2.2
      rw [(h₀.tables.pd0_up hf).2.2] at hup
      cases hup
      exact hsame ⟨rfl, by omega⟩
    rw [Mem.setWord_of_ne _ hslot, Mem.release_word, h f' i' hf' hi' j hj]
    tauto

/-- A page table is freed, and its entry cleared. -/
theorem Standing.erase_pt (h₀ : PageOk s kind dirs) (h : Standing kind d w t) (hd : d ∈ dirs)
    {g r : ℕ} (hf : kind f = .pd0 d (r / 512)) (hg : kind g = .pt d r) :
    Standing kind d { w with pt := w.pt.erase r } ((t.release g).setWord f (r % 512) 0) where
  dir i hi' f' := by
    have hne : d ≠ f := Tables.ne_of_kind (h₀.kind_dir hd) hf (by rintro ⟨⟩)
    rw [Mem.setWord_of_ne _ (.inl hne), Mem.release_word]
    exact h.dir i hi' f'
  entry {f' i'} hf' hi' := Entries.erase_pt (S := {x | x ∈ w.pd0}) h₀ (fun _ _ ↦ h.entry) g hf f' i'
    hf' hi'
  free x := by
    rw [Mem.setWord_free, Mem.release_free, Finset.mem_insert, h.free]
    simp only [Finset.mem_erase]
    constructor
    · rintro (rfl | hx | hx | ⟨r', hx, hr'⟩)
      · exact .inr (.inr ⟨r, hg, fun hcon ↦ hcon.1 rfl⟩)
      · exact .inl hx
      · exact .inr (.inl hx)
      · exact .inr (.inr ⟨r', hx, fun hcon ↦ hr' hcon.2⟩)
    · rintro (hx | hx | ⟨r', hx, hr'⟩)
      · exact .inr (.inl hx)
      · exact .inr (.inr (.inl hx))
      · by_cases hrr : r' = r
        · subst hrr
          have hup := (h₀.tables.table_iff (h₀.kind_dir hd) (h₀.tables.pt_dir hx).2).mpr hx
          rw [(h₀.tables.table_iff (h₀.kind_dir hd) (h₀.tables.pt_dir hg).2).mpr hg] at hup
          cases hup
          exact .inl rfl
        · exact .inr (.inr (.inr ⟨r', hx, fun hcon ↦ hr' ⟨hrr, hcon⟩⟩))
  pd0_ex := h.pd0_ex
  pt_ex r' hr' := h.pt_ex r' (Finset.mem_of_mem_erase hr')

/-- A level 0 directory is freed, and its entry cleared. -/
theorem Standing.erase_pd0 (h₀ : PageOk s kind dirs) (h : Standing kind d w t) (hd : d ∈ dirs)
    (hf : kind f = .pd0 d i) :
    Standing kind d { w with pd0 := w.pd0.erase i } ((t.release f).setWord d i 0) where
  dir i' hi' f' := by
    rw [Finset.mem_erase]
    by_cases hsame : i' = i
    · subst hsame
      rw [Mem.setWord_self, target_zero]
      exact iff_of_false (Option.some_ne_none f').symm fun hcon ↦ hcon.1.1 rfl
    · rw [Mem.setWord_of_ne _ (.inr hsame), Mem.release_word, h.dir i' hi']
      tauto
  entry {f' i'} hf' hi' j hj g' := by
    have hne : f' ≠ d := Tables.ne_of_kind hf' (h₀.kind_dir hd) (by rintro ⟨⟩)
    rw [Mem.setWord_of_ne _ (.inl hne), Mem.release_word]
    exact h.entry hf' (Finset.mem_of_mem_erase hi') j hj g'
  free x := by
    rw [Mem.setWord_free, Mem.release_free, Finset.mem_insert, h.free]
    simp only [Finset.mem_erase]
    constructor
    · rintro (rfl | hx | ⟨i', hx, hi'⟩ | hx)
      · exact .inr (.inl ⟨i, hf, fun hcon ↦ hcon.1 rfl⟩)
      · exact .inl hx
      · exact .inr (.inl ⟨i', hx, fun hcon ↦ hi' hcon.2⟩)
      · exact .inr (.inr hx)
    · rintro (hx | ⟨i', hx, hi'⟩ | hx)
      · exact .inr (.inl hx)
      · by_cases hii : i' = i
        · subst hii
          have hup := (h₀.tables.pd0_up hx).2.2
          rw [(h₀.tables.pd0_up hf).2.2] at hup
          cases hup
          exact .inl rfl
        · exact .inr (.inr (.inl ⟨i', hx, fun hcon ↦ hi' ⟨hii, hcon⟩⟩))
      · exact .inr (.inr (.inr hx))
  pd0_ex i' hi' := h.pd0_ex i' (Finset.mem_of_mem_erase hi')
  pt_ex := h.pt_ex
end Standing

/-! ## Freeing tables -/

theorem ptSize_pos : 0 < ptSize := by
  rw [ptSize]
  norm_num

/-- All entries of the page table `r` are invalid. -/
def emptyPt (s : Mem) (d r : ℕ) : Bool :=
  (s.table d r).any fun g ↦ (List.range 512).all fun k ↦ !isValid (s.word g k)

/-- The tables of `w` are left of those that `s` had, and only the directory and its level 0
directories were written. -/
structure Pruned (s : Mem) (kind : ℕ → FrameKind) (d : ℕ) (w : Levels) (t : Mem) : Prop where
  standing : Standing kind d w t
  entries : Entries kind d Set.univ w.pt t
  other : ∀ x, x ≠ d → (∀ i, kind x ≠ .pd0 d i) → t.word x = s.word x

section Prune

variable {s t : Mem} {kind : ℕ → FrameKind} {dirs : Finset ℕ} {d f i : ℕ} {w : Levels}

theorem emptyPt_iff {r g : ℕ} (hg : s.table d r = some g) :
    emptyPt s d r = true ↔ ∀ k < 512, ¬isValid (s.word g k) = true := by
  rw [emptyPt, hg, Option.any_some, List.all_eq_true]
  simp only [List.mem_range, Bool.not_eq_true', Bool.not_eq_true]

theorem Pruned.start (h₀ : PageOk s kind dirs) (hd : d ∈ dirs) : Pruned s kind d (levels s d) s :=
  ⟨.start h₀ hd,
    fun _ _ hf _ ↦ (Standing.start h₀ hd).entry hf ((mem_levels_pd0 h₀ hd).mpr ⟨_, hf⟩),
    fun _ _ _ ↦ rfl⟩

theorem Pruned.leaf (h : Pruned s kind d w t) (h₀ : PageOk s kind dirs) (hd : d ∈ dirs) {g r : ℕ}
    (hg : kind g = .pt d r) : t.word g = s.word g := by
  apply h.other g
  · exact Tables.ne_of_kind hg (h₀.kind_dir hd) (by rintro ⟨⟩)
  · intro i hi
    rw [hg] at hi
    cases hi

/-- One round of the inner loop frees the page table when it is empty. -/
theorem exitPt_prune (h₀ : PageOk s kind dirs) (hd : d ∈ dirs) (h : Pruned s kind d w t) {r : ℕ}
    (hf : kind f = .pd0 d (r / 512)) (hi : r / 512 ∈ w.pd0) :
    ∃ t', (exitPt f (r * ptSize)).run t = .ok (decide (r ∈ w.pt)) t' ∧
      Pruned s kind d { w with pt := w.pt.filter fun x ↦ ¬(x = r ∧ emptyPt s d x = true) } t' := by
  have hindex : pdx0 (r * ptSize) = r % 512 := by
    rw [pdx0, Nat.mul_div_cancel r (by decide)]
  have hentry := h.standing.entry hf hi (r % 512) (Nat.mod_lt r (by decide))
  rw [Nat.div_add_mod] at hentry
  rw [exitPt, get_bind_run, hindex]
  -- the page table still stands, or it was freed before
  by_cases hr : r ∈ w.pt
  · obtain ⟨g, hg⟩ := h.standing.pt_ex r hr
    have ht : target (t.word f (r % 512)) = some g := (hentry g).mpr ⟨hr, hg⟩
    have hlt : g < npage := h₀.tables.lt g (by rw [hg]; rintro ⟨⟩)
    have htable : s.table d r = some g :=
      (h₀.tables.table_iff (h₀.kind_dir hd) (h₀.tables.pt_dir hg).2).mpr hg
    have htest : ((List.range 512).all fun k ↦ !isValid (t.word g k)) = emptyPt s d r := by
      rw [emptyPt, htable, Option.any_some, h.leaf h₀ hd hg]
    rw [if_pos (isValid_of_target ht).1, bind_of_ok (pte2page_run ht hlt), htest, decide_eq_true hr]
    by_cases hempty : emptyPt s d r = true
    · rw [if_pos hempty, bind_of_ok (freePage_run (h.standing.pt_notMem_free hg hr))]
      have hset : (w.pt.filter fun x ↦ ¬(x = r ∧ emptyPt s d x = true)) = w.pt.erase r := by
        ext x
        rw [Finset.mem_filter, Finset.mem_erase]
        constructor
        · rintro ⟨hx, hnot⟩
          exact ⟨fun hxr ↦ hnot ⟨hxr, hxr ▸ hempty⟩, hx⟩
        · rintro ⟨hne, hx⟩
          exact ⟨hx, fun hcon ↦ hne hcon.1⟩
      rw [hset]
      refine ⟨_, rfl, h.standing.erase_pt h₀ hd hf hg, h.entries.erase_pt h₀ g hf, ?_⟩
      · intro x hx hkind
        have hne : x ≠ f := fun heq ↦ hkind (r / 512) (heq ▸ hf)
        rw [← h.other x hx hkind]
        funext k
        rw [Mem.setWord_of_ne _ (.inl hne), Mem.release_word]
    · rw [if_neg hempty]
      have hset : (w.pt.filter fun x ↦ ¬(x = r ∧ emptyPt s d x = true)) = w.pt := by
        rw [Finset.filter_eq_self]
        rintro x - ⟨rfl, hx⟩
        exact hempty hx
      rw [hset]
      exact ⟨t, rfl, h⟩
  · have ht : target (t.word f (r % 512)) = none := by
      rw [Option.eq_none_iff_forall_ne_some]
      intro g hg
      exact hr ((hentry g).mp hg).1
    rw [if_neg (isValid_eq_false_of_target ht), decide_eq_false hr]
    have hset : (w.pt.filter fun x ↦ ¬(x = r ∧ emptyPt s d x = true)) = w.pt := by
      rw [Finset.filter_eq_self]
      rintro x hx ⟨rfl, -⟩
      exact hr hx
    rw [hset]
    exact ⟨t, rfl, h⟩

/-- The page tables that are left when the empty ones from `lo` up to `e` are freed. -/
def keepPt (s : Mem) (d lo e : ℕ) (pt : Finset ℕ) : Finset ℕ :=
  pt.filter fun x ↦ ¬((lo ≤ x ∧ x < e) ∧ emptyPt s d x = true)

theorem mem_keepPt {lo e x : ℕ} {pt : Finset ℕ} : x ∈ keepPt s d lo e pt ↔
    x ∈ pt ∧ ¬((lo ≤ x ∧ x < e) ∧ emptyPt s d x = true) := by
  rw [keepPt, Finset.mem_filter]

/-- The inner loop from `r` up to `e`. -/
theorem exitPts_prune (h₀ : PageOk s kind dirs) (hd : d ∈ dirs) (hf : kind f = .pd0 d i)
    {d0end e : ℕ} (hend : ∀ r, r * ptSize < d0end ↔ r < e) (he : e ≤ 512 * (i + 1))
    {fuel r a : ℕ} (free : Bool) (ha : a = r * ptSize) (hi : i ∈ w.pd0) (hfuel : e - r ≤ fuel)
    (hlo : 512 * i ≤ r) (hr : r < e) (h : Pruned s kind d w t) :
    ∃ t' b, (exitPts f d0end fuel a free).run t = .ok b t' ∧
      (b = true ↔ free = true ∧ ∀ x, r ≤ x → x < e → x ∈ w.pt) ∧
      Pruned s kind d { w with pt := keepPt s d r e w.pt } t' := by
  -- the flag stays up while every page table so far was there, freed or not
  induction fuel generalizing t w r a free with
  | zero => omega
  | succ fuel ih =>
    have hri : r / 512 = i := by omega
    obtain ⟨t₁, hrun₁, h₁⟩ := exitPt_prune h₀ hd h (r := r) (by rwa [hri]) (by rwa [hri])
    rw [← ha] at hrun₁
    obtain ⟨a', ha'⟩ : ∃ a', a' = (r + 1) * ptSize := ⟨_, rfl⟩
    have hnext : a + ptSize = a' := by
      rw [ha, ha']
      ring
    have hstep : (exitPtNext f a free).run t = .ok (a', free && decide (r ∈ w.pt)) t₁ := by
      rw [exitPtNext, bind_of_ok hrun₁, hnext, run_pure]
    rw [exitPts, bind_of_ok hstep]
    by_cases hmore : r + 1 < e
    · have hcond : a' ≠ 0 ∧ a' < d0end := by
        rw [ha']
        exact ⟨(Nat.mul_pos (Nat.succ_pos r) ptSize_pos).ne', (hend _).mpr hmore⟩
      rw [if_pos hcond]
      obtain ⟨t', b, hrun, hb, h'⟩ :=
        ih (w := { w with pt := w.pt.filter fun x ↦ ¬(x = r ∧ emptyPt s d x = true) }) _ ha' hi
          (by omega) (by omega) hmore h₁
      refine ⟨t', b, hrun, ?_, ?_⟩
      · rw [hb, Bool.and_eq_true, decide_eq_true_iff]
        constructor
        · rintro ⟨⟨hfree, hrmem⟩, hrest⟩
          refine ⟨hfree, fun x hx hxe ↦ ?_⟩
          rcases Nat.eq_or_lt_of_le hx with rfl | hlt
          · exact hrmem
          · exact Finset.mem_of_mem_filter x (hrest x hlt hxe)
        · rintro ⟨hfree, hall⟩
          refine ⟨⟨hfree, hall r le_rfl hr⟩, fun x hx hxe ↦ ?_⟩
          exact Finset.mem_filter.mpr ⟨hall x (by omega) hxe, fun hcon ↦ by omega⟩
      · have hset : keepPt s d (r + 1) e (w.pt.filter fun x ↦ ¬(x = r ∧ emptyPt s d x = true)) =
            keepPt s d r e w.pt := by
          ext x
          rw [mem_keepPt, mem_keepPt, Finset.mem_filter, and_assoc]
          refine and_congr_right fun _ ↦ ?_
          by_cases hx : emptyPt s d x = true
          · simp only [hx, and_true]
            omega
          · simp [hx]
        simp only at h'
        rwa [hset] at h'
    · have hcond : ¬(a' ≠ 0 ∧ a' < d0end) := by
        rw [ha']
        exact fun hcon ↦ hmore ((hend _).mp hcon.2)
      rw [if_neg hcond]
      refine ⟨t₁, free && decide (r ∈ w.pt), rfl, ?_, ?_⟩
      · rw [Bool.and_eq_true, decide_eq_true_iff]
        refine and_congr_right fun _ ↦ ⟨fun hrmem x hx hxe ↦ ?_, fun hall ↦ hall r le_rfl hr⟩
        have hxr : x = r := by omega
        rwa [hxr]
      · have hset : keepPt s d r e w.pt =
            w.pt.filter fun x ↦ ¬(x = r ∧ emptyPt s d x = true) := by
          ext x
          rw [mem_keepPt, Finset.mem_filter]
          have hone : r ≤ x ∧ x < e ↔ x = r := by omega
          rw [hone]
        rw [hset]
        exact h₁

/-- What is left of the level 0 directories and the page tables after one round of the outer loop,
for the page tables from `lo` up to `e` of the region `i`. -/
def pruneRegion (s : Mem) (d i lo e : ℕ) (w : Levels) : Levels :=
  if i ∈ w.pd0 then
    ⟨w.pd0.filter fun j ↦ ¬(j = i ∧ ∀ x ∈ Finset.Ico lo e, x ∈ w.pt), keepPt s d lo e w.pt⟩
  else w

/-- One round of the outer loop. -/
theorem exitPd0_prune (h₀ : PageOk s kind dirs) (hd : d ∈ dirs) (h : Pruned s kind d w t)
    (hi : i < 2) {lo e stop : ℕ} (hend : ∀ r, r * ptSize < min (i * pdSize + pdSize) stop ↔ r < e)
    (he : e ≤ 512 * (i + 1)) (hlo : 512 * i ≤ lo) (hlt : lo < e) :
    ∃ t', (exitPd0 d (i * pdSize) (lo * ptSize) stop).run t = .ok () t' ∧
      Pruned s kind d (pruneRegion s d i lo e w) t' := by
  have hindex : pdx1 (i * pdSize) = i := by
    rw [pdx1, Nat.mul_div_cancel i (by decide), Nat.mod_eq_of_lt (by omega)]
  rw [exitPd0, get_bind_run, hindex, pruneRegion]
  by_cases hmem : i ∈ w.pd0
  · obtain ⟨f, hf⟩ := h.standing.pd0_ex i hmem
    have ht : target (t.word d i) = some f := (h.standing.dir i hi f).mpr ⟨hmem, hf⟩
    have hlt' : f < npage := h₀.tables.lt f (by rw [hf]; rintro ⟨⟩)
    obtain ⟨t₁, b, hrun₁, hb, h₁⟩ := exitPts_prune h₀ hd hf hend he true rfl hmem
      (show e - lo ≤ 512 by omega) hlo hlt h
    have hall : b = true ↔ ∀ x ∈ Finset.Ico lo e, x ∈ w.pt := by
      rw [hb]
      simp only [true_and, Finset.mem_Ico, and_imp]
    rw [if_pos (isValid_of_target ht).1, bind_of_ok (pte2page_run ht hlt'), bind_of_ok hrun₁,
      if_pos hmem]
    -- the flag alone decides, whatever entries are left
    cases b with
    | true =>
      have hevery := hall.mp rfl
      rw [if_pos rfl, bind_of_ok (freePage_run (h₁.standing.pd0_notMem_free hf hmem))]
      have hset : (w.pd0.filter fun j ↦ ¬(j = i ∧ ∀ x ∈ Finset.Ico lo e, x ∈ w.pt)) =
          w.pd0.erase i := by
        ext j
        rw [Finset.mem_filter, Finset.mem_erase]
        constructor
        · rintro ⟨hj, hnot⟩
          exact ⟨fun hji ↦ hnot ⟨hji, hevery⟩, hj⟩
        · rintro ⟨hne, hj⟩
          exact ⟨hj, fun hcon ↦ hne hcon.1⟩
      rw [hset]
      refine ⟨_, rfl, h₁.standing.erase_pd0 h₀ hd hf, ?_, ?_⟩
      · intro f' i' hf' hi' j hj g'
        have hne : f' ≠ d := Tables.ne_of_kind hf' (h₀.kind_dir hd) (by rintro ⟨⟩)
        rw [Mem.setWord_of_ne _ (.inl hne), Mem.release_word]
        exact h₁.entries f' i' hf' hi' j hj g'
      · intro x hx hkind
        rw [← h₁.other x hx hkind]
        funext k
        rw [Mem.setWord_of_ne _ (.inl hx), Mem.release_word]
    | false =>
      rw [if_neg Bool.false_ne_true]
      have hset : (w.pd0.filter fun j ↦ ¬(j = i ∧ ∀ x ∈ Finset.Ico lo e, x ∈ w.pt)) = w.pd0 := by
        rw [Finset.filter_eq_self]
        rintro j - ⟨-, hevery⟩
        exact Bool.false_ne_true (hall.mpr hevery)
      rw [hset]
      exact ⟨t₁, rfl, h₁⟩
  · have ht : target (t.word d i) = none := by
      rw [Option.eq_none_iff_forall_ne_some]
      intro f hf
      exact hmem ((h.standing.dir i hi f).mp hf).1
    rw [if_neg (isValid_eq_false_of_target ht), if_neg hmem]
    exact ⟨t, rfl, h⟩

/-- What `exit_range` leaves when its range meets the page tables from `lo` up to `e`. -/
structure PruneStep (s : Mem) (d lo e : ℕ) (w w' : Levels) : Prop where
  pd0 : ∀ j, j ∈ w'.pd0 ↔ j ∈ w.pd0 ∧ ¬((∃ r, (lo ≤ r ∧ r < e) ∧ r / 512 = j) ∧
    ∀ r, lo ≤ r ∧ r < e → r / 512 = j → r ∈ w.pt)
  pt : ∀ r, r ∈ w'.pt ↔
    r ∈ w.pt ∧ ¬(r / 512 ∈ w.pd0 ∧ (lo ≤ r ∧ r < e) ∧ emptyPt s d r = true)

/-- A range in one region. -/
theorem pruneRegion_step {lo e : ℕ} (hlo : 512 * i ≤ lo) (hlt : lo < e) (he : e ≤ 512 * (i + 1)) :
    PruneStep s d lo e w (pruneRegion s d i lo e w) := by
  have hin : ∀ r, lo ≤ r ∧ r < e → r / 512 = i := by omega
  rw [pruneRegion]
  by_cases hi : i ∈ w.pd0
  · rw [if_pos hi]
    constructor
    · intro j
      rw [Finset.mem_filter]
      refine and_congr_right fun _ ↦ not_congr ⟨?_, ?_⟩
      · rintro ⟨rfl, hall⟩
        refine ⟨⟨lo, ⟨le_rfl, hlt⟩, hin lo ⟨le_rfl, hlt⟩⟩, fun r hr _ ↦ ?_⟩
        exact hall r (Finset.mem_Ico.mpr hr)
      · rintro ⟨⟨r, hr, rfl⟩, hall⟩
        refine ⟨hin r hr, fun x hx ↦ ?_⟩
        have hx' := Finset.mem_Ico.mp hx
        exact hall x hx' ((hin x hx').trans (hin r hr).symm)
    · intro r
      rw [mem_keepPt]
      refine and_congr_right fun _ ↦ not_congr ⟨fun hr ↦ ⟨?_, hr⟩, fun hr ↦ hr.2⟩
      rw [hin r hr.1]
      exact hi
  · rw [if_neg hi]
    constructor
    · intro j
      refine ⟨fun hj ↦ ⟨hj, ?_⟩, fun hj ↦ hj.1⟩
      rintro ⟨⟨r, hr, rfl⟩, -⟩
      exact hi (hin r hr ▸ hj)
    · intro r
      refine ⟨fun hr ↦ ⟨hr, ?_⟩, fun hr ↦ hr.1⟩
      rintro ⟨hmem, hr', -⟩
      exact hi (hin r hr' ▸ hmem)

/-- The page tables up to the end `m` of a region, and the rest of the range. -/
theorem PruneStep.append {lo m e : ℕ} {w w₁ w' : Levels} (h : PruneStep s d lo m w w₁)
    (h' : PruneStep s d m e w₁ w') (hm : m % 512 = 0) (hlo : lo ≤ m) (he : m ≤ e) :
    PruneStep s d lo e w w' where
  pd0 j := by
    rw [h'.pd0, h.pd0]
    by_cases hj : 512 * j < m
    · -- the rest of the range is behind the region `j`
      have hnone : ¬∃ r, (m ≤ r ∧ r < e) ∧ r / 512 = j := by
        rintro ⟨r, hr, rfl⟩
        omega
      have hiff : ∀ r, r / 512 = j → (lo ≤ r ∧ r < m ↔ lo ≤ r ∧ r < e) := by omega
      have hex : (∃ r, (lo ≤ r ∧ r < m) ∧ r / 512 = j) ↔ ∃ r, (lo ≤ r ∧ r < e) ∧ r / 512 = j :=
        exists_congr fun r ↦ and_congr_left (hiff r)
      have hall : (∀ r, lo ≤ r ∧ r < m → r / 512 = j → r ∈ w.pt) ↔
          ∀ r, lo ≤ r ∧ r < e → r / 512 = j → r ∈ w.pt :=
        ⟨fun hw r hr hrj ↦ hw r ((hiff r hrj).mpr hr) hrj,
          fun hw r hr hrj ↦ hw r ((hiff r hrj).mp hr) hrj⟩
      simp only [hnone, hex, hall, false_and, not_false_eq_true, and_true]
    · -- the region `j` is all in the rest
      have hnone : ¬∃ r, (lo ≤ r ∧ r < m) ∧ r / 512 = j := by
        rintro ⟨r, hr, rfl⟩
        omega
      have hiff : ∀ r, r / 512 = j → (m ≤ r ∧ r < e ↔ lo ≤ r ∧ r < e) := by omega
      have hsame : ∀ r, m ≤ r → (r ∈ w₁.pt ↔ r ∈ w.pt) := by
        intro r hr
        rw [h.pt]
        exact ⟨fun hmem ↦ hmem.1, fun hmem ↦ ⟨hmem, fun hcon ↦ by omega⟩⟩
      have hex : (∃ r, (m ≤ r ∧ r < e) ∧ r / 512 = j) ↔ ∃ r, (lo ≤ r ∧ r < e) ∧ r / 512 = j :=
        exists_congr fun r ↦ and_congr_left (hiff r)
      have hall : (∀ r, m ≤ r ∧ r < e → r / 512 = j → r ∈ w₁.pt) ↔
          ∀ r, lo ≤ r ∧ r < e → r / 512 = j → r ∈ w.pt :=
        ⟨fun hw r hr hrj ↦ (hsame r (by omega)).mp (hw r ((hiff r hrj).mpr hr) hrj),
          fun hw r hr hrj ↦ (hsame r hr.1).mpr (hw r ((hiff r hrj).mp hr) hrj)⟩
      simp only [hnone, hex, hall, false_and, not_false_eq_true, and_true]
  pt r := by
    rw [h'.pt, h.pt, and_assoc]
    refine and_congr_right fun _ ↦ ?_
    by_cases hr : r < m
    · have hbehind : ¬(r / 512 ∈ w₁.pd0 ∧ (m ≤ r ∧ r < e) ∧ emptyPt s d r = true) :=
        fun hcon ↦ by omega
      have hiff : lo ≤ r ∧ r < m ↔ lo ≤ r ∧ r < e := by omega
      simp only [hbehind, hiff, not_false_eq_true, and_true]
    · have hhere : ¬(r / 512 ∈ w.pd0 ∧ (lo ≤ r ∧ r < m) ∧ emptyPt s d r = true) :=
        fun hcon ↦ by omega
      have hsame : r / 512 ∈ w₁.pd0 ↔ r / 512 ∈ w.pd0 := by
        rw [h.pd0]
        refine ⟨fun hj ↦ hj.1, fun hj ↦ ⟨hj, ?_⟩⟩
        rintro ⟨⟨x, hx, hxr⟩, -⟩
        omega
      have hiff : m ≤ r ∧ r < e ↔ lo ≤ r ∧ r < e := by omega
      simp only [hhere, hsame, hiff, not_false_eq_true, true_and]

/-- The outer loop. -/
theorem exitPd0s_prune (h₀ : PageOk s kind dirs) (hd : d ∈ dirs) {lo e stop fuel a b : ℕ}
    (hend : ∀ r, r * ptSize < stop ↔ r < e) (he : e ≤ 1024) (ha : a = i * pdSize)
    (hb : b = lo * ptSize) (hlo : 512 * i ≤ lo) (hlow : lo < 512 * (i + 1)) (hlt : lo < e)
    (hfuel : 2 - i ≤ fuel) (h : Pruned s kind d w t) :
    ∃ t' w', (exitPd0s d stop fuel a b).run t = .ok () t' ∧ Pruned s kind d w' t' ∧
      PruneStep s d lo e w w' := by
  induction fuel generalizing t w i lo a b with
  | zero => omega
  | succ fuel ih =>
    have hregion : ∀ r, r * ptSize < i * pdSize + pdSize ↔ r < 512 * (i + 1) := by
      intro r
      rw [ptSize, pdSize]
      omega
    have hboth : ∀ r, r * ptSize < min (i * pdSize + pdSize) stop ↔ r < min (512 * (i + 1)) e := by
      intro r
      rw [lt_min_iff, lt_min_iff, hregion, hend]
    obtain ⟨t₁, hrun₁, h₁⟩ := exitPd0_prune h₀ hd h (show i < 2 by omega) hboth
      (min_le_left _ _) hlo (lt_min hlow hlt)
    have hstep₁ : PruneStep s d lo (min (512 * (i + 1)) e) w _ :=
      pruneRegion_step hlo (lt_min hlow hlt) (min_le_left _ _)
    rw [← ha, ← hb] at hrun₁
    obtain ⟨a', ha'⟩ : ∃ a', a' = (i + 1) * pdSize := ⟨_, rfl⟩
    have hnext : a + pdSize = a' := by
      rw [ha, ha']
      ring
    have hslots : a' = 512 * (i + 1) * ptSize := by
      rw [ha', ptSize, pdSize]
      omega
    have hround : (exitPd0Next d a b stop).run t = .ok a' t₁ := by
      rw [exitPd0Next, bind_of_ok hrun₁, hnext, run_pure]
    rw [exitPd0s, bind_of_ok hround]
    -- the rest of the range starts with the next region
    by_cases hmore : 512 * (i + 1) < e
    · have hcond : a' ≠ 0 ∧ a' < stop := by
        rw [hslots, hend]
        exact ⟨(Nat.mul_pos (by omega) ptSize_pos).ne', hmore⟩
      rw [if_pos hcond]
      obtain ⟨t', w', hrun, h', hrest⟩ := ih ha' hslots le_rfl (by omega) hmore (by omega) h₁
      rw [min_eq_left hmore.le] at hstep₁ hrest
      exact ⟨t', w', hrun, h', hstep₁.append hrest (by omega) hlow.le hmore.le⟩
    · have hcond : ¬(a' ≠ 0 ∧ a' < stop) := by
        rw [hslots, hend]
        exact fun hcon ↦ hmore hcon.2
      rw [if_neg hcond]
      rw [min_eq_right (not_lt.mp hmore)] at hstep₁ h₁
      exact ⟨t₁, _, rfl, h₁, hstep₁⟩

/-- The number of page tables up to the end of a range. -/
def ptEnd (stop : ℕ) : ℕ := (stop + ptSize - 1) / ptSize

/-- `exit_range` on any directory. -/
theorem exitRange_prune (h₀ : PageOk s kind dirs) (hd : d ∈ dirs) {start stop : ℕ}
    (halign : start % pgSize = 0 ∧ stop % pgSize = 0) (huser : UserAccess start stop)
    (h : Pruned s kind d w t) :
    ∃ t' w', (exitRange d start stop).run t = .ok () t' ∧ Pruned s kind d w' t' ∧
      PruneStep s d (start / ptSize) (ptEnd stop) w w' := by
  have hlt := huser.2.1
  have hle := huser.2.2
  rw [userTop] at hle
  have hend : ∀ r, r * ptSize < stop ↔ r < ptEnd stop := by
    intro r
    rw [ptEnd, ptSize]
    omega
  have hpos : start / ptSize < ptEnd stop := by
    rw [ptEnd, ptSize]
    omega
  have htop : ptEnd stop ≤ 1024 := by
    rw [ptEnd, ptSize]
    omega
  have hregion : start / pdSize = start / ptSize / 512 := by
    rw [pdSize, ptSize]
    omega
  rw [exitRange, assert_bind_run halign, assert_bind_run huser, hregion]
  refine exitPd0s_prune h₀ hd hend htop rfl rfl (by omega) (by omega) hpos ?_ h
  exact (Nat.sub_le _ _).trans (Nat.le_add_left 2 _)

end Prune

/-! ## The tables that are freed -/

/-- The range meets the page table `r`. -/
def Meets (start stop r : ℕ) : Prop := r * ptSize < stop ∧ start < (r + 1) * ptSize

/-- `exit_range` frees the tables of `d` that serve a part of the range and have no valid entry. -/
structure ExitExact (s : Mem) (dirs : Finset ℕ) (d start stop : ℕ) (t : Mem) : Prop where
  pt : ∀ r < 1024, ∀ g, s.table d r = some g →
    (g ∈ t.free ↔ Meets start stop r ∧ ∀ k < 512, ¬isValid (s.word g k) = true)
  pd0 : ∀ i < 2, ∀ f, s.table0 d i = some f → (f ∈ t.free ↔
    (∃ r, Meets start stop r ∧ r / 512 = i) ∧ ∀ j < 512, ¬isValid (t.word f j) = true)
  only : ∀ x ∈ t.free, x ∈ s.free ∨ (∃ i < 2, s.table0 d i = some x) ∨
    ∃ r < 1024, s.table d r = some x
  maps : ∀ d' ∈ dirs, ∀ n < 524288, t.maps (d', n) = s.maps (d', n)
  unreferenced0 : ∀ d' ∈ dirs, ∀ i < 2, ∀ f, t.table0 d' i = some f → f ∉ t.free
  unreferenced : ∀ d' ∈ dirs, ∀ r < 1024, ∀ g, t.table d' r = some g → g ∉ t.free

/-- In a level 0 directory that serves a part of the range: the page tables for the range are all
there exactly when the ones that are there all serve the range and are empty. -/
def ExitCond (s : Mem) (d start stop : ℕ) : Prop :=
  ∀ i < 2, ∀ f, s.table0 d i = some f → (∃ r, Meets start stop r ∧ r / 512 = i) →
    ((∀ r, Meets start stop r → r / 512 = i → (s.table d r).isSome) ↔
      ∀ r g, r / 512 = i → s.table d r = some g →
        Meets start stop r ∧ ∀ k < 512, ¬isValid (s.word g k) = true)

section Exact

variable {s t : Mem} {kind : ℕ → FrameKind} {dirs : Finset ℕ} {d f i start stop : ℕ} {w : Levels}

theorem meets_iff {r : ℕ} : Meets start stop r ↔ start / ptSize ≤ r ∧ r < ptEnd stop := by
  rw [Meets, ptEnd, ptSize]
  omega

/-- The entries that are left in a level 0 directory, freed or not. -/
theorem Pruned.isValid_iff (h : Pruned s kind d w t) (hf : kind f = .pd0 d i) {j : ℕ}
    (hj : j < 512) :
    isValid (t.word f j) = true ↔ 512 * i + j ∈ w.pt := by
  have hentry := h.entries f i hf (Set.mem_univ i) j hj
  constructor
  · intro hvalid
    have ht : target (t.word f j) = some (pteFrame (t.word f j)) := if_pos hvalid
    exact ((hentry _).mp ht).1
  · intro hr
    obtain ⟨g, hg⟩ := h.standing.pt_ex _ hr
    exact (isValid_of_target ((hentry g).mpr ⟨hr, hg⟩)).1

/-- A page table is free afterwards when it was dropped. -/
theorem Pruned.pt_mem_free (h : Pruned s kind d w t) {g r : ℕ} (hg : kind g = .pt d r) :
    g ∈ t.free ↔ r ∉ w.pt := by
  refine ⟨fun hfree hr ↦ h.standing.pt_notMem_free hg hr hfree, fun hr ↦ ?_⟩
  exact (h.standing.free g).mpr (.inr (.inr ⟨r, hg, hr⟩))

theorem Pruned.pd0_mem_free (h : Pruned s kind d w t) (hf : kind f = .pd0 d i) :
    f ∈ t.free ↔ i ∉ w.pd0 := by
  refine ⟨fun hfree hi ↦ h.standing.pd0_notMem_free hf hi hfree, fun hi ↦ ?_⟩
  exact (h.standing.free f).mpr (.inr (.inl ⟨i, hf, hi⟩))

/-- The other directories keep their tables. -/
theorem Pruned.other_dir (h₀ : PageOk s kind dirs) (hd : d ∈ dirs) (h : Pruned s kind d w t)
    {d' : ℕ} (hd' : d' ∈ dirs) (hne : d' ≠ d) :
    (∀ i < 2, t.table0 d' i = s.table0 d' i) ∧ (∀ r < 1024, t.table d' r = s.table d' r) ∧
      ∀ n < 524288, t.pte d' n = s.pte d' n := by
  have hdir := h₀.kind_dir hd'
  have hword : t.word d' = s.word d' := by
    apply h.other d' hne
    intro i hi
    rw [hdir] at hi
    cases hi
  have htable0 : ∀ i < 2, t.table0 d' i = s.table0 d' i := by
    intro i _
    rw [Mem.table0, hword, Mem.table0]
  have htable : ∀ r < 1024, t.table d' r = s.table d' r := by
    intro r hr
    rw [Mem.table, htable0 _ (by omega), Mem.table]
    cases hf : s.table0 d' (r / 512) with
    | none => rfl
    | some f =>
      have hkind := h₀.tables.kind_table0 hdir (by omega) hf
      have hsame : t.word f = s.word f := by
        apply h.other f
        · exact Tables.ne_of_kind hkind (h₀.kind_dir hd) (by rintro ⟨⟩)
        · intro i hi
          rw [hkind] at hi
          cases hi
          exact hne rfl
      rw [Option.bind_some, Option.bind_some, hsame]
  refine ⟨htable0, htable, fun n hn ↦ ?_⟩
  rw [Mem.pte, htable _ (by omega), Mem.pte]
  cases hg : s.table d' (n / 512) with
  | none => rfl
  | some g =>
    have hkind := h₀.tables.kind_table hdir (by omega) hg
    have hsame : t.word g = s.word g := by
      apply h.other g
      · exact Tables.ne_of_kind hkind (h₀.kind_dir hd) (by rintro ⟨⟩)
      · intro i hi
        rw [hkind] at hi
        cases hi
    simp only [hsame]

/-- The page tables of the directory itself afterwards. -/
theorem Pruned.table_iff (h : Pruned s kind d w t) {r g : ℕ} (hr : r < 1024) :
    t.table d r = some g ↔ r / 512 ∈ w.pd0 ∧ r ∈ w.pt ∧ kind g = .pt d r := by
  have hmod : r % 512 < 512 := Nat.mod_lt r (by decide)
  have hdiv : 512 * (r / 512) + r % 512 = r := Nat.div_add_mod r 512
  rw [Mem.table_eq_some]
  constructor
  · rintro ⟨f, hf, hg⟩
    obtain ⟨hi, hkind⟩ := (h.standing.dir (r / 512) (by omega) f).mp hf
    have hentry := (h.entries f (r / 512) hkind (Set.mem_univ _) (r % 512) hmod g).mp hg
    rw [hdiv] at hentry
    exact ⟨hi, hentry⟩
  · rintro ⟨hi, hrmem, hg⟩
    obtain ⟨f, hkind⟩ := h.standing.pd0_ex _ hi
    refine ⟨f, (h.standing.dir (r / 512) (by omega) f).mpr ⟨hi, hkind⟩, ?_⟩
    apply (h.entries f (r / 512) hkind (Set.mem_univ _) (r % 512) hmod g).mpr
    rw [hdiv]
    exact ⟨hrmem, hg⟩

/-- No mapping goes when a level 0 directory only goes with its last page table. -/
theorem Pruned.maps_eq (h₀ : PageOk s kind dirs) (hd : d ∈ dirs) (h : Pruned s kind d w t)
    (hlast : ∀ r ∈ w.pt, r / 512 ∈ w.pd0)
    (hdropped : ∀ r g, kind g = .pt d r → r ∉ w.pt → ∀ k < 512, ¬isValid (s.word g k) = true)
    {n : ℕ} (hn : n < 524288) : t.maps (d, n) = s.maps (d, n) := by
  have hr : n / 512 < 1024 := by omega
  have hdir := h₀.kind_dir hd
  rw [Mem.maps, Mem.maps]
  cases hg : s.table d (n / 512) with
  | none =>
    have hgone : t.table d (n / 512) = none := by
      rw [Option.eq_none_iff_forall_ne_some]
      intro g hcon
      obtain ⟨-, -, hkind⟩ := (h.table_iff hr).mp hcon
      rw [(h₀.tables.table_iff hdir hr).mpr hkind] at hg
      cases hg
    rw [Mem.pte_of_no_table hg, Mem.pte_of_no_table hgone]
  | some g =>
    have hkind := h₀.tables.kind_table hdir hr hg
    by_cases hleft : n / 512 ∈ w.pt
    · have hstays : t.table d (n / 512) = some g :=
        (h.table_iff hr).mpr ⟨hlast _ hleft, hleft, hkind⟩
      rw [Mem.pte_of_table hg, Mem.pte_of_table hstays, h.leaf h₀ hd hkind]
    · have hgone : t.table d (n / 512) = none := by
        rw [Option.eq_none_iff_forall_ne_some]
        intro g' hcon
        exact hleft ((h.table_iff hr).mp hcon).2.1
      rw [Mem.pte_of_table hg, Mem.pte_of_no_table hgone, target_zero,
        target_of_not_valid (hdropped _ g hkind hleft _ (Nat.mod_lt n (by decide)))]

/-- No directory leads to a level 0 directory that is free. -/
theorem Pruned.unreferenced0 (h₀ : PageOk s kind dirs) (hd : d ∈ dirs) (h : Pruned s kind d w t)
    {d' : ℕ} (hd' : d' ∈ dirs) (hi : i < 2) (hf : t.table0 d' i = some f) : f ∉ t.free := by
  by_cases hne : d' = d
  · subst hne
    obtain ⟨hmem, hkind⟩ := (h.standing.dir i hi f).mp hf
    exact h.standing.pd0_notMem_free hkind hmem
  · rw [(h.other_dir h₀ hd hd' hne).1 i hi] at hf
    have hkind := h₀.tables.kind_table0 (h₀.kind_dir hd') hi hf
    rw [h.standing.free, hkind]
    rintro (hx | ⟨j, hx, -⟩ | ⟨r, hx, -⟩)
    · cases hx
    · cases hx
      exact hne rfl
    · cases hx

/-- No directory leads to a page table that is free. -/
theorem Pruned.unreferenced (h₀ : PageOk s kind dirs) (hd : d ∈ dirs) (h : Pruned s kind d w t)
    {d' r g : ℕ} (hd' : d' ∈ dirs) (hr : r < 1024) (hg : t.table d' r = some g) : g ∉ t.free := by
  by_cases hne : d' = d
  · subst hne
    obtain ⟨-, hmem, hkind⟩ := (h.table_iff hr).mp hg
    exact h.standing.pt_notMem_free hkind hmem
  · rw [(h.other_dir h₀ hd hd' hne).2.1 r hr] at hg
    have hkind := h₀.tables.kind_table (h₀.kind_dir hd') hr hg
    rw [h.standing.free, hkind]
    rintro (hx | ⟨j, hx, -⟩ | ⟨r', hx, hr'⟩)
    · cases hx
    · cases hx
    · cases hx
      exact hne rfl

/-- Only tables of the directory are freed. -/
theorem Pruned.freed (h₀ : PageOk s kind dirs) (hd : d ∈ dirs) (h : Pruned s kind d w t) {x : ℕ}
    (hx : x ∈ t.free) :
    x ∈ s.free ∨ (∃ i < 2, s.table0 d i = some x) ∨ ∃ r < 1024, s.table d r = some x := by
  rcases (h.standing.free x).mp hx with hx | ⟨i, hx, -⟩ | ⟨r, hx, -⟩
  · exact .inl ((h₀.tables.free x).mp hx)
  · obtain ⟨-, hi, ht⟩ := h₀.tables.pd0_up hx
    exact .inr (.inl ⟨i, hi, ht⟩)
  · obtain ⟨-, hr⟩ := h₀.tables.pt_dir hx
    exact .inr (.inr ⟨r, hr, (h₀.tables.table_iff (h₀.kind_dir hd) hr).mpr hx⟩)

theorem mem_levels_iff {r : ℕ} (hr : r < 1024) :
    r ∈ (levels s d).pt ↔ (s.table d r).isSome = true := by
  rw [levels, Finset.mem_filter, Finset.mem_range]
  exact and_iff_right hr

/-- A page table goes exactly when it is met and empty. -/
theorem PruneStep.pt_iff (h₀ : PageOk s kind dirs) (hd : d ∈ dirs)
    (hstep : PruneStep s d (start / ptSize) (ptEnd stop) (levels s d) w) {r g : ℕ} (hr : r < 1024)
    (hg : s.table d r = some g) :
    r ∉ w.pt ↔ Meets start stop r ∧ ∀ k < 512, ¬isValid (s.word g k) = true := by
  have hmem : r ∈ (levels s d).pt := (mem_levels_iff hr).mpr (by rw [hg]; rfl)
  have hup : r / 512 ∈ (levels s d).pd0 := by
    obtain ⟨f, hf, -⟩ := h₀.tables.pt_up (h₀.tables.kind_table (h₀.kind_dir hd) hr hg)
    exact (mem_levels_pd0 h₀ hd).mpr ⟨f, hf⟩
  rw [hstep.pt, meets_iff, ← emptyPt_iff hg]
  constructor
  · intro hnot
    by_contra hcon
    exact hnot ⟨hmem, fun hgone ↦ hcon hgone.2⟩
  · rintro hgone ⟨-, hnot⟩
    exact hnot ⟨hup, hgone⟩

/-- A level 0 directory goes exactly when the page tables for the range are there. -/
theorem PruneStep.pd0_iff (h₀ : PageOk s kind dirs) (hd : d ∈ dirs)
    (hstep : PruneStep s d (start / ptSize) (ptEnd stop) (levels s d) w) (hi : i < 2)
    (hf : s.table0 d i = some f) :
    i ∉ w.pd0 ↔ (∃ r, Meets start stop r ∧ r / 512 = i) ∧
      ∀ r, Meets start stop r → r / 512 = i → (s.table d r).isSome = true := by
  have hmem : i ∈ (levels s d).pd0 :=
    (mem_levels_pd0 h₀ hd).mpr ⟨f, h₀.tables.kind_table0 (h₀.kind_dir hd) hi hf⟩
  have hall : (∀ r, Meets start stop r → r / 512 = i → (s.table d r).isSome = true) ↔
      ∀ r, start / ptSize ≤ r ∧ r < ptEnd stop → r / 512 = i → r ∈ (levels s d).pt := by
    constructor
    · intro hw r hr hri
      exact (mem_levels_iff (by omega)).mpr (hw r (meets_iff.mpr hr) hri)
    · intro hw r hr hri
      exact (mem_levels_iff (by omega)).mp (hw r (meets_iff.mp hr) hri)
  rw [hall, hstep.pd0]
  simp only [meets_iff]
  rw [not_and_not_right]
  exact ⟨fun hgone ↦ hgone hmem, fun hgone _ ↦ hgone⟩

/-- A level 0 directory is empty afterwards when all its page tables have gone. -/
theorem Pruned.empty_iff (h₀ : PageOk s kind dirs) (hd : d ∈ dirs) (h : Pruned s kind d w t)
    (hi : i < 2) (hf : s.table0 d i = some f) :
    (∀ j < 512, ¬isValid (t.word f j) = true) ↔
      ∀ r g, r / 512 = i → s.table d r = some g → r ∉ w.pt := by
  have hkind := h₀.tables.kind_table0 (h₀.kind_dir hd) hi hf
  constructor
  · intro hall r g hri _
    have hinvalid := hall (r % 512) (Nat.mod_lt r (by decide))
    rwa [h.isValid_iff hkind (Nat.mod_lt r (by decide)), ← hri, Nat.div_add_mod] at hinvalid
  · intro hall j hj
    rw [h.isValid_iff hkind hj]
    intro hmem
    obtain ⟨g, hg⟩ := h.standing.pt_ex _ hmem
    have htable := (h₀.tables.table_iff (h₀.kind_dir hd) (h₀.tables.pt_dir hg).2).mpr hg
    exact hall _ g (by omega) htable hmem

/-- `exit_range` frees the empty tables and no others exactly when, in each level 0 directory that
it meets, the test for missing page tables agrees with the test for valid entries. -/
theorem exitRange_exact_iff (h₀ : PageOk s kind dirs) (hd : d ∈ dirs)
    (halign : start % pgSize = 0 ∧ stop % pgSize = 0) (huser : UserAccess start stop) :
    ∃ t, (exitRange d start stop).run s = .ok () t ∧
      (ExitExact s dirs d start stop t ↔ ExitCond s d start stop) := by
  obtain ⟨t, w, hrun, h, hstep⟩ := exitRange_prune h₀ hd halign huser (.start h₀ hd)
  have hdir := h₀.kind_dir hd
  have hempty : ∀ i < 2, ∀ f, s.table0 d i = some f →
      ((∀ j < 512, ¬isValid (t.word f j) = true) ↔ ∀ r g, r / 512 = i → s.table d r = some g →
        Meets start stop r ∧ ∀ k < 512, ¬isValid (s.word g k) = true) := by
    intro i hi f hf
    rw [h.empty_iff h₀ hd hi hf]
    refine forall_congr' fun r ↦ forall_congr' fun g ↦ ?_
    refine forall_congr' fun hri ↦ forall_congr' fun hg ↦ ?_
    exact hstep.pt_iff h₀ hd (by omega) hg
  -- the directory is freed when the range finds its page tables, and should be when it is empty
  have hfree : ∀ i < 2, ∀ f, s.table0 d i = some f → (f ∈ t.free ↔
      (∃ r, Meets start stop r ∧ r / 512 = i) ∧
        ∀ r, Meets start stop r → r / 512 = i → (s.table d r).isSome = true) := by
    intro i hi f hf
    rw [h.pd0_mem_free (h₀.tables.kind_table0 hdir hi hf), hstep.pd0_iff h₀ hd hi hf]
  refine ⟨t, hrun, ?_⟩
  constructor
  · intro hexact i hi f hf hmet
    have hagree := hexact.pd0 i hi f hf
    rw [hfree i hi f hf, hempty i hi f hf] at hagree
    constructor
    · intro hall
      exact (hagree.mp ⟨hmet, hall⟩).2
    · intro hgone
      exact (hagree.mpr ⟨hmet, hgone⟩).2
  · intro hcond
    have hdropped : ∀ r g, kind g = .pt d r → r ∉ w.pt →
        ∀ k < 512, ¬isValid (s.word g k) = true := by
      intro r g hg hgone
      obtain ⟨-, hr⟩ := h₀.tables.pt_dir hg
      exact ((hstep.pt_iff h₀ hd hr ((h₀.tables.table_iff hdir hr).mpr hg)).mp hgone).2
    have hlast : ∀ r ∈ w.pt, r / 512 ∈ w.pd0 := by
      intro r hr
      obtain ⟨g, hg⟩ := h.standing.pt_ex r hr
      have hlt := (h₀.tables.pt_dir hg).2
      have htable := (h₀.tables.table_iff hdir hlt).mpr hg
      obtain ⟨f, hf, -⟩ := Mem.table_eq_some.mp htable
      by_contra hgone
      obtain ⟨hmet, hall⟩ := (hstep.pd0_iff h₀ hd (by omega) hf).mp hgone
      have hvoid := (hcond _ (by omega) f hf hmet).mp hall r g rfl htable
      exact (hstep.pt_iff h₀ hd hlt htable).mpr hvoid hr
    constructor
    · intro r hr g hg
      rw [h.pt_mem_free (h₀.tables.kind_table hdir hr hg), hstep.pt_iff h₀ hd hr hg]
    · intro i hi f hf
      rw [hfree i hi f hf, hempty i hi f hf]
      exact and_congr_right fun hmet ↦ hcond i hi f hf hmet
    · exact fun x hx ↦ h.freed h₀ hd hx
    · intro d' hd' n hn
      by_cases hne : d' = d
      · subst hne
        exact h.maps_eq h₀ hd hlast hdropped hn
      · rw [Mem.maps, (h.other_dir h₀ hd hd' hne).2.2 n hn, Mem.maps]
    · exact fun d' hd' i hi f hf ↦ h.unreferenced0 h₀ hd hd' hi hf
    · exact fun d' hd' r hr g hg ↦ h.unreferenced h₀ hd hd' hr hg

/-- A directory with a page in the last place of a page table. -/
def lastPage : List PageCall := [.setupPgdir, .pgdirAllocPage 0x80400 0x3FF000 pteUser]

/-- Whether a page number is mapped by a directory when a routine has returned. -/
def unmaps (d n : ℕ) : Outcome Errno Mem Unit → Bool
  | .ok () t => t.maps (d, n) = none
  | _ => false

/-- Only the last place of a page table is mapped, and the range ends before it. -/
theorem lastPage_before : ∃ (st : PageState) (kind : ℕ → FrameKind),
    PageRun lowestPage (fun _ ↦ 0) (PageState.init (fun _ _ ↦ 0) (Finset.Icc 0x80400 0x80408)) st ∧
      PageOk st.mem kind st.dirs ∧ 0x80400 ∈ st.dirs ∧
      (∀ n, 0x200 ≤ n → n < 0x3FF → st.mem.maps (0x80400, n) = none) ∧
      st.mem.maps (0x80400, 0x3FF) = some 0x80401 ∧
      unmaps 0x80400 0x3FF ((exitRange 0x80400 0x200000 0x3FF000).run st.mem) = true := by
  have hcheck : ((PageState.follow lowestPage (fun _ ↦ 0) lastPage
      (PageState.init (fun _ _ ↦ 0) (Finset.Icc 0x80400 0x80408))).map fun st ↦
        (decide (0x80400 ∈ st.dirs ∧ st.mem.maps (0x80400, 0x3FF) = some 0x80401) &&
          unmaps 0x80400 0x3FF ((exitRange 0x80400 0x200000 0x3FF000).run st.mem)) &&
          (List.range 0x1FF).all fun k ↦ st.mem.maps (0x80400, 0x200 + k) = none) = some true := by
    decide +kernel
  obtain ⟨st, hfollow, hst⟩ := Option.map_eq_some_iff.mp hcheck
  obtain ⟨hrest, hall⟩ := Bool.and_eq_true_iff.mp hst
  obtain ⟨hdec, hlost⟩ := Bool.and_eq_true_iff.mp hrest
  obtain ⟨hdirs, hmaps⟩ := of_decide_eq_true hdec
  have hrun := PageState.run_of_follow .start hfollow
  obtain ⟨kind, hok⟩ := hrun.ok (by decide) fun _ _ ↦ rfl
  refine ⟨st, kind, hrun, hok.page, hdirs, fun n hlo hhi ↦ ?_, hmaps, hlost⟩
  obtain ⟨k, rfl⟩ := Nat.exists_eq_add_of_le hlo
  exact of_decide_eq_true (List.all_eq_true.mp hall k (List.mem_range.mpr (by omega)))

theorem exitRange_exact_iff_sample : ∃ (s t : Mem) (dirs : Finset ℕ),
    s.maps (0x80400, 0x3FF) = some 0x80401 ∧
      (exitRange 0x80400 0x400000 0x600000).run s = .ok () t ∧
      (ExitExact s dirs 0x80400 0x400000 0x600000 t ↔ ExitCond s 0x80400 0x400000 0x600000) := by
  obtain ⟨st, kind, -, hok, hdirs, -, hmaps, -⟩ := lastPage_before
  have halign : 0x400000 % pgSize = 0 ∧ 0x600000 % pgSize = 0 := by decide
  have huser : UserAccess 0x400000 0x600000 := by decide
  obtain ⟨t, hrun, hiff⟩ := exitRange_exact_iff hok hdirs halign huser
  exact ⟨st.mem, t, st.dirs, hmaps, hrun, hiff⟩

/-- The level 0 directory is freed with the page table in it that still maps a page behind the
range. -/
theorem exitRange_loses_mapping : ∃ (st : PageState) (t : Mem),
    PageRun lowestPage (fun _ ↦ 0) (PageState.init (fun _ _ ↦ 0) (Finset.Icc 0x80400 0x80408)) st ∧
      (∀ n, 0x200 ≤ n → n < 0x3FF → st.mem.maps (0x80400, n) = none) ∧
      (exitRange 0x80400 0x200000 0x3FF000).run st.mem = .ok () t ∧
      st.mem.maps (0x80400, 0x3FF) = some 0x80401 ∧ t.maps (0x80400, 0x3FF) = none ∧
      ¬ExitExact st.mem st.dirs 0x80400 0x200000 0x3FF000 t := by
  obtain ⟨st, kind, hrun, hok, hdirs, hnone, hmaps, hlost⟩ := lastPage_before
  have halign : 0x200000 % pgSize = 0 ∧ 0x3FF000 % pgSize = 0 := by decide
  have huser : UserAccess 0x200000 0x3FF000 := by decide
  obtain ⟨t, w, hexit, -⟩ := exitRange_prune hok hdirs halign huser (.start hok hdirs)
  rw [hexit] at hlost
  have hgone : t.maps (0x80400, 0x3FF) = none := of_decide_eq_true hlost
  refine ⟨st, t, hrun, hnone, hexit, hmaps, hgone, fun hexact ↦ ?_⟩
  have hsame := hexact.maps 0x80400 hdirs 0x3FF (by decide)
  rw [hgone, hmaps] at hsame
  cases hsame

end Exact

end Ucore.AddrSpace
