import Ucore.Mm.AddrSpace
import Ucore.Mm.PageRuns

/-!
# Copied address spaces

What `dup_mmap` leaves when it returns zero: the child has a page of its own for every page of the
parent, with the same contents and permissions, and for no other page; the parent is as it was. A
store through one of the two address spaces is then never seen through the other
(`dupMmap_isolates`).

## The copy

`Copied src dst P` says that the pages in `P` have been copied from one directory to the other, each
to a page that was free before, and that nothing else has changed: the entries of the other
directories, the entries of `dst` elsewhere, and what the pages held. One round of `copy_range` adds
one page to `P`, and each area adds its own.

## The stores

A page of the copy is mapped once, so no page is mapped by both directories (`Apart`). A store goes
to a page that its own directory maps and changes no entry, hence any sequence of stores through the
two keeps them apart, and a load through one of them sees the stores of that one only.
-/

namespace Ucore.AddrSpace

open Prog RefCount

/-! ## Permissions -/

theorem isType_perm (w : BitVec 64) : IsType (w &&& pteUser) := by
  rw [IsType, BitVec.toNat_and]
  exact lt_of_le_of_lt Nat.and_le_right (by decide)

/-- The entry of the copy has the permissions of the entry that was copied. -/
theorem pteCreate_perm (f : ℕ) {w : BitVec 64} (hw : isValid w = true) :
    pteCreate f (pteV ||| (w &&& pteUser)) &&& pteUser = w &&& pteUser := by
  rw [isValid_eq] at hw
  apply BitVec.eq_of_getLsbD_eq
  intro i hi
  have hmask : pteUser.getLsbD i = decide (i < 5) := by
    revert hi i
    decide
  have hvalid : pteV.getLsbD i = decide (i = 0) := by
    revert hi i
    decide
  rw [BitVec.getLsbD_and, BitVec.getLsbD_and, hmask]
  by_cases hlow : i < 5
  · have hframe : (BitVec.ofNat 64 f <<< 10).getLsbD i = false := by
      rw [BitVec.getLsbD_shiftLeft]
      simp [show i < 10 by omega]
    rw [pteCreate, BitVec.getLsbD_or, BitVec.getLsbD_or, BitVec.getLsbD_or, BitVec.getLsbD_and,
      hframe, hvalid, hmask]
    rcases Nat.eq_zero_or_pos i with rfl | hpos
    · simp [hw]
    · simp [hlow, hpos.ne']
  · simp [hlow]

/-! ## What is copied -/

/-- The pages `P` of the directory `src` are copied to the directory `dst`, from the memory `s`. -/
structure Copied (src dst : ℕ) (P : ℕ → Prop) (dirs : Finset ℕ) (s : Mem) (kind : ℕ → FrameKind)
    (t : Mem) (kind' : ℕ → FrameKind) : Prop where
  ok : PageOk t kind' dirs
  kept : ∀ x, kind x ≠ .free → kind' x = kind x
  word : ∀ x, kind x = .data → t.word x = s.word x
  others : ∀ e ∈ dirs, e ≠ dst → ∀ n < 524288, t.pte e n = s.pte e n
  rest : ∀ n < 524288, ¬(P n ∧ s.maps (src, n) ≠ none) → t.pte dst n = s.pte dst n
  copied : ∀ n < 524288, P n → ∀ x, s.maps (src, n) = some x →
    ∃ y, kind y = .free ∧ t.maps (dst, n) = some y ∧ t.mapped dirs y = 1 ∧ t.word y = s.word x ∧
      t.pte dst n &&& pteUser = s.pte src n &&& pteUser

namespace Copied

variable {src dst n page x : ℕ} {P Q : ℕ → Prop} {dirs : Finset ℕ} {s t t₁ t₂ : Mem}
  {kind kind' kind₁ kind₂ : ℕ → FrameKind}

theorem refl (h : PageOk s kind dirs) : Copied src dst (fun _ ↦ False) dirs s kind s kind where
  ok := h
  kept _ _ := rfl
  word _ _ := rfl
  others _ _ _ _ _ := rfl
  rest _ _ _ := rfl
  copied _ _ hP := hP.elim

/-- Pages that are not there need no copy. -/
theorem extend (h : Copied src dst P dirs s kind t kind') (hPQ : ∀ n < 524288, P n → Q n)
    (hnone : ∀ n < 524288, Q n → ¬P n → s.maps (src, n) = none) :
    Copied src dst Q dirs s kind t kind' :=
  { h with
    rest := fun n hn hQ ↦ h.rest n hn fun hP ↦ hQ ⟨hPQ n hn hP.1, hP.2⟩
    copied := fun n hn hQ x hx ↦ by
      by_cases hP : P n
      · exact h.copied n hn hP x hx
      · rw [hnone n hn hQ hP] at hx
        cases hx }

/-- One more page is copied to a page that was free. -/
theorem insert {perm : BitVec 64} (h₀ : PageOk s kind dirs)
    (h : Copied src dst P dirs s kind t kind') (hsrc : src ∈ dirs) (hdst : dst ∈ dirs)
    (hn : n < 524288)
    (hempty : s.maps (dst, n) = none) (hP : ¬P n) (hx : s.maps (src, n) = some x)
    (hperm : perm = s.pte src n &&& pteUser) (hgrow : Grow (OnPath dst n) t kind' t₁ kind₁)
    (hpage : kind₁ page = .free)
    (hins : Inserted dst n (pteCreate page (pteV ||| perm)) dirs
      ((t₁.take page).setPage page (t₁.word x)) (Function.update kind₁ page .data) t₂ kind₂) :
    Copied src dst (fun m ↦ P m ∨ m = n) dirs s kind t₂ kind₂ := by
  have hok₁ := h.ok.grow hgrow fun _ ↦ PageOk.onPath_ne
  obtain ⟨hok₂, hmapped₂⟩ := hok₁.take hpage
  have hself : Function.update kind₁ page FrameKind.data page = .data := Function.update_self _ _ _
  have hword₂ : ∀ y, Function.update kind₁ page FrameKind.data y ≠ .data →
      ((t₁.take page).setPage page (t₁.word x)).word y = (t₁.take page).word y := by
    intro y hy
    have hne : y ≠ page := by
      rintro rfl
      exact hy hself
    exact Function.update_of_ne hne _ _
  obtain ⟨hok₃, hpte₃⟩ := hok₂.of_word_data hword₂ rfl rfl
  -- the entries before the page is entered
  have hpte : ∀ e ∈ dirs, ∀ m < 524288,
      ((t₁.take page).setPage page (t₁.word x)).pte e m = t.pte e m := by
    intro e he m hm
    have htake : (t₁.take page).pte e m = t₁.pte e m := Mem.pte_eq_of_word_eq rfl e m
    rw [hpte₃ e he m hm, htake, hgrow.pte h.ok.tables (h.ok.kind_dir he) hm]
  have hcount : ∀ y, ((t₁.take page).setPage page (t₁.word x)).mapped dirs y = t.mapped dirs y :=
    fun y ↦ PageOk.mapped_congr hpte
  have hhere : t.maps (dst, n) = none := by
    rw [Mem.maps, h.rest n hn fun hcon ↦ hP hcon.1]
    exact hempty
  have hnone : ((t₁.take page).setPage page (t₁.word x)).maps (dst, n) = none := by
    rw [Mem.maps, hpte dst hdst n hn]
    exact hhere
  have hlt : page < npage := hok₁.tables.lt_of_free hpage
  have htarget : target (pteCreate page (pteV ||| perm)) = some page := by
    rw [hperm]
    exact target_pteCreate hlt (isType_perm _).or_valid
  have hmapped := fun y ↦ hins.mapped_eq (x := y) hdst hn hnone
  have hkept₁ : ∀ y, kind y ≠ .free → kind₁ y = kind y ∧ y ≠ page := by
    intro y hy
    have hkind : kind₁ y = kind y := by
      rw [hgrow.kept y (by rwa [h.kept y hy]), h.kept y hy]
    refine ⟨hkind, ?_⟩
    rintro rfl
    exact hy (hkind.symm.trans hpage)
  have hdata₁ : ∀ y, kind' y = .data → kind₁ y = .data ∧ y ≠ page := by
    intro y hy
    have hkind : kind₁ y = .data := by rw [hgrow.kept y (by rw [hy]; rintro ⟨⟩), hy]
    refine ⟨hkind, ?_⟩
    rintro rfl
    rw [hpage] at hkind
    cases hkind
  have hword : ∀ y, kind' y = .data → t₂.word y = t.word y := by
    intro y hy
    obtain ⟨hkind, hne⟩ := hdata₁ y hy
    rw [hins.word y (by rwa [Function.update_of_ne hne])]
    exact (Function.update_of_ne hne _ _).trans (hgrow.word_data y hy)
  -- the parent keeps its kinds, its contents and its entries; the child gets one page more
  refine ⟨hins.ok, ?_, ?_, ?_, ?_, ?_⟩
  · intro y hy
    obtain ⟨hkind, hne⟩ := hkept₁ y hy
    have hkind₂ : Function.update kind₁ page FrameKind.data y = kind y := by
      rw [Function.update_of_ne hne, hkind]
    rcases hins.kinds y (by rwa [hkind₂]) with hsame | ⟨-, hmaps⟩
    · rw [hsame, hkind₂]
    · rw [hnone] at hmaps
      cases hmaps
  · intro y hy
    have hdata : kind' y = .data := by rw [h.kept y (by rw [hy]; rintro ⟨⟩), hy]
    rw [hword y hdata, h.word y hy]
  · intro e he hne m hm
    rw [hins.elsewhere e he m hm fun hcon ↦ hne hcon.1, hpte e he m hm, h.others e he hne m hm]
  · intro m hm hrest
    have hne : m ≠ n := by
      rintro rfl
      refine hrest ⟨.inr rfl, ?_⟩
      rw [hx]
      rintro ⟨⟩
    rw [hins.elsewhere dst hdst m hm fun hcon ↦ hne hcon.2, hpte dst hdst m hm]
    exact h.rest m hm fun hcon ↦ hrest ⟨.inl hcon.1, hcon.2⟩
  · intro m hm hPm z hz
    -- the page copied in this round, and those copied before
    by_cases hmn : m = n
    · subst hmn
      rw [hx] at hz
      cases hz
      have hxdata := (h₀.maps_data hsrc hm hx).1
      have hpage' : kind page = .free := by
        by_contra hne
        exact (hkept₁ page hne).2 rfl
      refine ⟨page, hpage', ?_, ?_, ?_, ?_⟩
      · rw [Mem.maps, hins.here, htarget]
      · have hm' := hmapped page
        rw [htarget, if_pos rfl, hcount, h.ok.mapped_eq_zero] at hm'
        · exact_mod_cast hm'
        · intro hdata
          exact (hdata₁ page hdata).2 rfl
      · rw [hins.word page hself]
        have hcopy : ((t₁.take page).setPage page (t₁.word x)).word page = t₁.word x :=
          Function.update_self _ _ _
        have hdata : kind' x = .data := by rw [h.kept x (by rw [hxdata]; rintro ⟨⟩), hxdata]
        rw [hcopy, hgrow.word_data x hdata, h.word x hxdata]
      · rw [hins.here, hperm, pteCreate_perm page (isValid_of_target hx).1]
    · obtain ⟨y, hfree, hmaps, hone, hcontents, hperms⟩ :=
        h.copied m hm (hPm.resolve_right hmn) z hz
      have hydata := (h.ok.maps_data hdst hm hmaps).1
      have hpte' : t₂.pte dst m = t.pte dst m := by
        rw [hins.elsewhere dst hdst m hm fun hcon ↦ hmn hcon.2, hpte dst hdst m hm]
      refine ⟨y, hfree, ?_, ?_, ?_, ?_⟩
      · rw [Mem.maps, hpte']
        exact hmaps
      · have hm' := hmapped y
        rw [htarget, if_neg, hcount, hone] at hm'
        · exact_mod_cast hm'
        · rintro ⟨⟩
          exact (hdata₁ page hydata).2 rfl
      · rw [hword y hydata, hcontents]
      · rw [hpte', hperms]

end Copied

/-! ## Copying -/

section Copy

variable {A : PageSource} {src dst : ℕ} {P : ℕ → Prop} {dirs : Finset ℕ} {s t : Mem}
  {kind kind' : ℕ → FrameKind}

/-- One round of `copy_range` copies the page, if there is one. -/
theorem copyPte_run {n f : ℕ} (h₀ : PageOk s kind dirs) (hsrc : src ∈ dirs) (hdst : dst ∈ dirs)
    (hne : src ≠ dst) (hempty : ∀ n < 524288, s.maps (dst, n) = none) (hn : n < 524288)
    (hP : ¬P n) (h : Copied src dst P dirs s kind t kind') (hf : t.table src (n / 512) = some f) :
    ((copyPte A dst (n * pgSize) (f, n % 512)).run t).Ends
      (fun _ t' ↦ ∃ kind'', Copied src dst (fun m ↦ P m ∨ m = n) dirs s kind t' kind'')
      (fun _ _ ↦ True) True := by
  have hword : t.word f (n % 512) = s.pte src n := by
    rw [← Mem.pte_of_table hf, h.others src hsrc hne n hn]
  have hdiv : n * pgSize / pgSize = n := Nat.mul_div_cancel n (by decide)
  have hla : n * pgSize < userTop := by
    rw [pgSize, userTop]
    omega
  rw [copyPte, get_bind_run]
  simp only [hword]
  by_cases hv : isValid (s.pte src n) = true
  · have hx : s.maps (src, n) = some (pteFrame (s.pte src n)) := target_of_valid hv
    obtain ⟨hxdata, hxlt⟩ := h₀.maps_data hsrc hn hx
    obtain ⟨t₁, kind₁, hgrow, hrun | ⟨g, hg, hrun⟩⟩ :=
      getPte_create (A := A) h.ok.tables (h.ok.kind_dir hdst) hla
    · rw [if_pos hv, bind_of_ok hrun]
      trivial
    rw [hdiv] at hgrow hg hrun
    rw [if_pos hv, bind_of_ok hrun]
    simp only
    rw [bind_of_ok (pte2page_run hx hxlt)]
    rcases allocPage_run A t₁ with halloc | ⟨page, hfree, halloc⟩
    · rw [bind_of_ok halloc]
      trivial
    have hok₁ := h.ok.grow hgrow fun _ ↦ PageOk.onPath_ne
    have hpage := (hok₁.tables.free page).mpr hfree
    have hself : Function.update kind₁ page FrameKind.data page = .data :=
      Function.update_self _ _ _
    rw [bind_of_ok halloc]
    simp only [modify_bind_run, Mem.take_word]
    -- the page is free, so that the tables do not notice what is copied to it
    have hword₂ : ∀ y, Function.update kind₁ page FrameKind.data y ≠ .data →
        ((t₁.take page).setPage page (t₁.word (pteFrame (s.pte src n)))).word y =
          (t₁.take page).word y := by
      intro y hy
      have hne : y ≠ page := by
        rintro rfl
        exact hy hself
      exact Function.update_of_ne hne _ _
    have hok₂ := ((hok₁.take hpage).1.of_word_data hword₂ rfl rfl).1
    obtain ⟨t₂, kind₂, ⟨hins, -⟩ | ⟨hins, hinserted⟩⟩ := pageInsert_run (A := A) hok₂ hdst hla hself
      (hok₁.tables.lt_of_free hpage) (isType_perm (s.pte src n))
    · rw [bind_of_ok (attempt_of_error hins)]
      trivial
    · rw [bind_of_ok (attempt_of_ok hins)]
      rw [hdiv] at hinserted
      exact ⟨kind₂, h.insert h₀ hsrc hdst hn (hempty n hn) hP hx rfl hgrow hpage hinserted⟩
  · rw [if_neg hv]
    refine ⟨kind', h.extend (fun m _ hm ↦ .inl hm) ?_⟩
    rintro m - (hm | rfl) hPm
    · exact absurd hm hPm
    · exact target_of_not_valid hv

/-- `copy_range` copies the pages of its range. -/
theorem copyRange_run {start stop : ℕ} (h₀ : PageOk s kind dirs) (hsrc : src ∈ dirs)
    (hdst : dst ∈ dirs) (hne : src ≠ dst) (hempty : ∀ n < 524288, s.maps (dst, n) = none)
    (hP : ∀ n, P n → ¬(start / pgSize ≤ n ∧ n < stop / pgSize))
    (h : Copied src dst P dirs s kind t kind') :
    ((copyRange A dst src start stop).run t).Ends
      (fun _ t' ↦ ∃ kind'',
        Copied src dst (fun m ↦ P m ∨ start / pgSize ≤ m ∧ m < stop / pgSize) dirs s kind t' kind'')
      (fun _ _ ↦ True) True := by
  rw [copyRange]
  by_cases halign : start % pgSize = 0 ∧ stop % pgSize = 0
  swap
  · rw [assert_bind_run_neg halign]
    trivial
  by_cases huser : UserAccess start stop
  swap
  · rw [assert_bind_run halign, assert_bind_run_neg huser]
    trivial
  rw [assert_bind_run halign, assert_bind_run huser]
  obtain ⟨lo, hi, rfl, rfl, hlt, htop⟩ := exists_pages halign huser
  have hdiv : ∀ j, j * pgSize / pgSize = j := fun j ↦ Nat.mul_div_cancel j (by decide)
  rw [hdiv, hdiv] at hP ⊢
  let I : ℕ → Mem → Prop := fun m t ↦
    lo ≤ m ∧ ∃ kind', Copied src dst (fun j ↦ P j ∨ lo ≤ j ∧ j < m) dirs s kind t kind'
  have hloop : ((rangeLoop A src (hi * pgSize) (copyPte A dst)
      (rangeFuel (lo * pgSize) (hi * pgSize)) (lo * pgSize)).run t).Ends (fun _ t ↦ I hi t)
      (fun _ _ ↦ True) True := by
    refine rangeLoop_ends (I := I) huser.2.2 ?_ ?_ ?_ ?_ hlt ?_
    · rintro m t ⟨-, kind', hcopy⟩
      exact ⟨kind', hcopy.ok.tables, hcopy.ok.kind_dir hsrc⟩
    · rintro m t ⟨hm, kind', hcopy⟩ hmhi ht
      refine ⟨by omega, kind', hcopy.extend (fun j _ hj ↦ by grind) fun j hj hQ hPj ↦ ?_⟩
      have hjm : j = m := by grind
      subst hjm
      rw [Mem.maps, ← hcopy.others src hsrc hne j hj, Mem.pte_of_no_table ht, target_zero]
    · rintro m t f ⟨hm, kind', hcopy⟩ hmhi ht
      have hPm : ¬(P m ∨ lo ≤ m ∧ m < m) := by
        rintro (hPm | hcon)
        · exact hP m hPm ⟨hm, hmhi⟩
        · omega
      refine (copyPte_run h₀ hsrc hdst hne hempty (by omega) hPm hcopy ht).imp ?_ fun _ _ h ↦ h
      rintro - t' ⟨kind'', hone⟩
      exact ⟨by omega, kind'', hone.extend (fun j _ hj ↦ by grind) fun j _ hQ hPj ↦ by grind⟩
    · rw [rangeFuel, ← Nat.sub_mul, hdiv]
      omega
    · exact ⟨le_rfl, kind', h.extend (fun j _ hj ↦ .inl hj) fun j _ hQ hPj ↦ by grind⟩
  exact hloop.imp (fun _ _ hI ↦ hI.2) fun _ _ h ↦ h

end Copy

/-! ## Copying an address space -/

/-- The areas of an address space are sorted and do not overlap. -/
def MmStruct.Sorted (mm : MmStruct) : Prop := mm.mmapList.Pairwise fun v w ↦ v.vmEnd ≤ w.vmStart

/-- Areas one behind the other have no page in common. -/
theorem Vma.not_page_of_le {v w : Vma} (h : v.vmEnd ≤ w.vmStart) {n : ℕ} (hv : v.Page n) :
    ¬w.Page n := by
  rintro ⟨hlo, -⟩
  have hle : v.vmEnd / pgSize ≤ w.vmStart / pgSize := Nat.div_le_div_right h
  exact absurd hv.2 (not_lt.mpr (hle.trans hlo))

section Dup

variable {A : PageSource} {give : ℕ → Bool}

theorem checkNeighbours_run (v w : Option Vma) (t : Vm) :
    ((checkNeighbours v w).run t).Ends (fun _ t' ↦ t' = t) (fun _ _ ↦ True) True := by
  rcases v with - | v
  · rfl
  rcases w with - | w
  · rfl
  rw [checkNeighbours, checkVmaOverlap]
  by_cases h₁ : v.vmStart < v.vmEnd
  swap
  · rw [assert_bind_run_neg h₁]
    trivial
  by_cases h₂ : v.vmEnd ≤ w.vmStart
  swap
  · rw [assert_bind_run h₁, assert_bind_run_neg h₂]
    trivial
  rw [assert_bind_run h₁, assert_bind_run h₂]
  by_cases h₃ : w.vmStart < w.vmEnd
  · rw [run_assert h₃]
    rfl
  · rw [run_assert_neg h₃]
    trivial

/-- `insert_vma_struct` changes neither the directory nor memory. -/
theorem insertVmaStruct_run (mm : MmStruct) (v : Vma) (t : Vm) :
    ((insertVmaStruct mm v).run t).Ends (fun r t' ↦ r.pgdir = mm.pgdir ∧ t' = t) (fun _ _ ↦ True)
      True := by
  rw [insertVmaStruct]
  by_cases h : v.vmStart < v.vmEnd
  swap
  · rw [assert_bind_run_neg h]
    trivial
  rw [assert_bind_run h]
  refine ends_bind (checkNeighbours_run _ _ t) ?_
  rintro - t' rfl
  refine ends_bind (checkNeighbours_run _ _ t') ?_
  rintro - t' rfl
  exact ⟨rfl, rfl⟩

/-- `vma_create` does not touch memory. -/
theorem vmaCreate_run (give : ℕ → Bool) (vmStart vmEnd : ℕ) (vmFlags : BitVec 32) (t : Vm) :
    ∃ vma t', (vmaCreate give vmStart vmEnd vmFlags).run t = .ok vma t' ∧ t'.mem = t.mem := by
  rw [vmaCreate, kmalloc]
  by_cases hgive : give t.asked = true
  · refine ⟨some ⟨t.asked, vmStart, vmEnd, vmFlags⟩,
      { t with asked := t.asked + 1, live := insert t.asked t.live }, ?_, rfl⟩
    simp only [run_bind, run_get, run_modify, if_pos hgive, run_pure, Option.map_some]
  · refine ⟨none, { t with asked := t.asked + 1 }, ?_, rfl⟩
    simp only [run_bind, run_get, run_modify, if_neg hgive, run_pure, Option.map_none]

variable {src : ℕ} {dirs : Finset ℕ} {s : Mem} {kind : ℕ → FrameKind}

/-- `dup_mmap` copies area by area. -/
theorem dupVmas_run {vmas : List Vma} {dst : MmStruct} {t : Vm} {P : ℕ → Prop}
    {kind' : ℕ → FrameKind}
    (h₀ : PageOk s kind dirs) (hsrc : src ∈ dirs) (hdst : dst.pgdir ∈ dirs) (hne : src ≠ dst.pgdir)
    (hempty : ∀ n < 524288, s.maps (dst.pgdir, n) = none)
    (hsorted : vmas.Pairwise fun v w ↦ w.vmEnd ≤ v.vmStart)
    (hP : ∀ v ∈ vmas, ∀ n, P n → ¬v.Page n)
    (h : Copied src dst.pgdir P dirs s kind t.mem kind') :
    ((dupVmas A give src vmas dst).run t).Ends (fun r t' ↦ r.1 = none → ∃ kind'',
      Copied src dst.pgdir (fun m ↦ P m ∨ ∃ v ∈ vmas, v.Page m) dirs s kind t'.mem kind'')
      (fun _ _ ↦ True) True := by
  induction vmas generalizing dst t P kind' with
  | nil =>
    rintro -
    refine ⟨kind', h.extend (fun m _ hm ↦ .inl hm) fun m _ hQ hPm ↦ ?_⟩
    rcases hQ with hQ | ⟨v, hv, -⟩
    · exact absurd hQ hPm
    · cases hv
  | cons v vmas ih =>
    obtain ⟨hv, hsorted⟩ := List.pairwise_cons.mp hsorted
    obtain ⟨nvma, t₁, hcreate, hmem⟩ := vmaCreate_run give v.vmStart v.vmEnd v.vmFlags t
    rw [dupVmas, bind_of_ok hcreate]
    cases nvma with
    | none => rintro ⟨⟩
    | some nvma =>
      simp only
      refine ends_bind (insertVmaStruct_run dst nvma t₁) ?_
      rintro dst₁ t₂ ⟨hpgdir, rfl⟩
      rw [← hmem] at h
      have hcopy := copyRange_run (A := A) h₀ hsrc hdst hne hempty
        (fun n hn ↦ hP v List.mem_cons_self n hn) h
      -- putting the area into the list leaves the directory of the copy as it is
      rw [← hpgdir] at hcopy
      cases hrun : (copyRange A dst₁.pgdir src v.vmStart v.vmEnd).run t₂.mem with
      | panic =>
        rw [bind_of_panic (attempt_of_panic (onMem_of_panic hrun))]
        trivial
      | error e mem =>
        rw [bind_of_ok (attempt_of_error (onMem_of_error hrun))]
        rintro ⟨⟩
      | ok a mem =>
        rw [hrun] at hcopy
        obtain ⟨kind₂, hcopied⟩ := hcopy
        rw [bind_of_ok (attempt_of_ok (onMem_of_ok hrun))]
        simp only
        refine (ih (t := { t₂ with mem := mem }) (by rwa [hpgdir]) (by rwa [hpgdir])
          (by rwa [hpgdir])
          hsorted ?_ hcopied).imp ?_ fun _ _ h ↦ h
        · rintro w hw n (hn | hn)
          · exact hP w (List.mem_cons_of_mem v hw) n hn
          -- the areas left lie below this one
          · exact fun hwn ↦ Vma.not_page_of_le (hv w hw) hwn hn
        · intro r t' hr hnone
          obtain ⟨kind₃, hall⟩ := hr hnone
          rw [hpgdir] at hall
          refine ⟨kind₃, hall.extend (fun m _ hm ↦ ?_) fun m _ hQ hPm ↦ absurd ?_ hPm⟩
          · rcases hm with (hm | hm) | ⟨w, hw, hm⟩
            · exact .inl hm
            · exact .inr ⟨v, List.mem_cons_self, hm⟩
            · exact .inr ⟨w, List.mem_cons_of_mem v hw, hm⟩
          · rcases hQ with hQ | ⟨w, hw, hm⟩
            · exact .inl (.inl hQ)
            · rcases List.mem_cons.mp hw with rfl | hw
              · exact .inl (.inr hm)
              · exact .inr ⟨w, hw, hm⟩

end Dup

/-! ## Isolation -/

/-- No page is mapped by both directories. -/
def Apart (s : Mem) (d e : ℕ) : Prop :=
  ∀ n < 524288, ∀ m < 524288, ∀ x, s.maps (d, n) = some x → s.maps (e, m) ≠ some x

section Stores

variable {dirs : Finset ℕ} {s : Mem} {kind : ℕ → FrameKind} {d e : ℕ}

theorem Apart.symm (h : Apart s d e) : Apart s e d := fun n hn m hm x hx hx' ↦ h m hm n hn x hx' hx

/-- A store does not change the tables. -/
theorem userStore_ok (h : PageOk s kind dirs) {st : UserStore} (hd : st.pgdir ∈ dirs)
    (hn : st.page < 524288) : PageOk (userStore s st) kind dirs ∧
      ∀ e ∈ dirs, ∀ m < 524288, (userStore s st).pte e m = s.pte e m := by
  rw [userStore]
  cases hx : s.maps (st.pgdir, st.page) with
  | none => exact ⟨h, fun _ _ _ _ ↦ rfl⟩
  | some x =>
    have hdata := (h.maps_data hd hn hx).1
    refine h.of_word_data (fun f hf ↦ ?_) rfl rfl
    have hne : f ≠ x := by
      rintro rfl
      exact hf hdata
    exact Function.update_of_ne hne _ _

theorem userStores_ok (h : PageOk s kind dirs) {sts : List UserStore}
    (hsts : ∀ st ∈ sts, st.pgdir ∈ dirs ∧ st.page < 524288) :
    PageOk (userStores s sts) kind dirs ∧
      ∀ e ∈ dirs, ∀ m < 524288, (userStores s sts).pte e m = s.pte e m := by
  induction sts generalizing s with
  | nil => exact ⟨h, fun _ _ _ _ ↦ rfl⟩
  | cons st sts ih =>
    obtain ⟨hd, hn⟩ := hsts st List.mem_cons_self
    obtain ⟨hok, hpte⟩ := userStore_ok h hd hn
    obtain ⟨hoks, hptes⟩ := ih hok fun st' hst' ↦ hsts st' (List.mem_cons_of_mem st hst')
    exact ⟨hoks, fun e he m hm ↦ (hptes e he m hm).trans (hpte e he m hm)⟩

/-- Entries that are the same keep directories apart. -/
theorem Apart.congr {s' : Mem} (h : Apart s d e) (hd : ∀ n < 524288, s'.pte d n = s.pte d n)
    (he : ∀ n < 524288, s'.pte e n = s.pte e n) : Apart s' d e := by
  intro n hn m hm x hx
  rw [Mem.maps, hd n hn] at hx
  rw [Mem.maps, he m hm]
  exact h n hn m hm x hx

/-- A store through one directory is not seen through a directory that is apart from it. -/
theorem userLoad_userStore (h : PageOk s kind dirs) {st : UserStore} (hd : st.pgdir ∈ dirs)
    (hn : st.page < 524288) (he : e ∈ dirs) (hapart : Apart s st.pgdir e) {m k : ℕ}
    (hm : m < 524288) : userLoad (userStore s st) e m k = userLoad s e m k := by
  have hmaps : (userStore s st).maps (e, m) = s.maps (e, m) := by
    rw [Mem.maps, Mem.maps, (userStore_ok h hd hn).2 e he m hm]
  rw [userLoad, userLoad, hmaps]
  refine Option.map_congr fun x hx ↦ ?_
  rw [userStore]
  cases hy : s.maps (st.pgdir, st.page) with
  | none => rfl
  | some y =>
    refine Mem.setWord_of_ne _ (.inl ?_) _
    rintro rfl
    exact hapart _ hn m hm x hy hx

end Stores

/-! ## Fork -/

section Fork

variable {A : PageSource} {give : ℕ → Bool} {dirs : Finset ℕ} {kind : ℕ → FrameKind}
  {dst src dst' : MmStruct} {s s' : Vm}

/-- When `dup_mmap` returns zero, every page of the parent has a page of its own in the child,
mapped nowhere else, with the same contents and permissions; the child maps no other page, and the
parent's pages are as they were. Whatever is stored through the two address spaces then, the next
store through one of them changes no load through the other. -/
theorem dupMmap_isolates (h : PageOk s.mem kind dirs) (hsrc : src.pgdir ∈ dirs)
    (hdst : dst.pgdir ∈ dirs) (hne : src.pgdir ≠ dst.pgdir)
    (hempty : ∀ n < 524288, s.mem.maps (dst.pgdir, n) = none) (hsorted : src.Sorted)
    (hareas : ∀ n < 524288, s.mem.maps (src.pgdir, n) ≠ none → ∃ v ∈ src.mmapList, v.Page n)
    (hrun : (dupMmap A give dst src).run s = .ok (none, dst') s') :
    (∀ n < 524288, ∀ x, s.mem.maps (src.pgdir, n) = some x →
      ∃ y, y ≠ x ∧ s'.mem.maps (dst.pgdir, n) = some y ∧ s'.mem.mapped dirs y = 1 ∧
        s'.mem.word y = s.mem.word x ∧
        s'.mem.pte dst.pgdir n &&& pteUser = s.mem.pte src.pgdir n &&& pteUser) ∧
      (∀ n < 524288, s.mem.maps (src.pgdir, n) = none → s'.mem.maps (dst.pgdir, n) = none) ∧
      (∀ n < 524288, s'.mem.pte src.pgdir n = s.mem.pte src.pgdir n ∧
        ∀ k, userLoad s'.mem src.pgdir n k = userLoad s.mem src.pgdir n k) ∧
      ∀ sts : List UserStore,
        (∀ st ∈ sts, (st.pgdir = dst.pgdir ∨ st.pgdir = src.pgdir) ∧ st.page < 524288) →
          ∀ st : UserStore, st.page < 524288 → ∀ n < 524288, ∀ k,
            (st.pgdir = dst.pgdir →
              userLoad (userStore (userStores s'.mem sts) st) src.pgdir n k =
                userLoad (userStores s'.mem sts) src.pgdir n k) ∧
            (st.pgdir = src.pgdir →
              userLoad (userStore (userStores s'.mem sts) st) dst.pgdir n k =
                userLoad (userStores s'.mem sts) dst.pgdir n k) := by
  have hdup : ((dupVmas A give src.pgdir src.mmapList.reverse dst).run s).Ends _ _ _ :=
    dupVmas_run h hsrc hdst hne hempty (List.pairwise_reverse.mpr hsorted)
      (fun _ _ _ hF ↦ hF.elim) (.refl h)
  rw [dupMmap] at hrun
  rw [hrun] at hdup
  obtain ⟨kind', hcopy⟩ := hdup rfl
  have hpages : ∀ n < 524288, s.mem.maps (src.pgdir, n) ≠ none →
      False ∨ ∃ v ∈ src.mmapList.reverse, v.Page n := by
    intro n hn hx
    obtain ⟨v, hv, hpage⟩ := hareas n hn hx
    exact .inr ⟨v, List.mem_reverse.mpr hv, hpage⟩
  have hnone : ∀ n < 524288, s.mem.maps (src.pgdir, n) = none →
      s'.mem.maps (dst.pgdir, n) = none := by
    intro n hn hx
    rw [Mem.maps, hcopy.rest n hn fun hcon ↦ hcon.2 hx]
    exact hempty n hn
  -- the pages of the child were free before, so none of them is a page of the parent
  have hapart : Apart s'.mem dst.pgdir src.pgdir := by
    intro n hn m hm y hy hx
    rw [Mem.maps, hcopy.others _ hsrc hne m hm] at hx
    have hdata := (h.maps_data hsrc hm hx).1
    cases hp : s.mem.maps (src.pgdir, n) with
    | none =>
      rw [hnone n hn hp] at hy
      cases hy
    | some x =>
      obtain ⟨z, hfree, hz, -⟩ := hcopy.copied n hn (hpages n hn (by rw [hp]; rintro ⟨⟩)) x hp
      rw [hz] at hy
      cases hy
      rw [hfree] at hdata
      cases hdata
  refine ⟨?_, hnone, ?_, ?_⟩
  · intro n hn x hx
    obtain ⟨y, hfree, hy, hone, hword, hperm⟩ :=
      hcopy.copied n hn (hpages n hn (by rw [hx]; rintro ⟨⟩)) x hx
    refine ⟨y, ?_, hy, hone, hword, hperm⟩
    rintro rfl
    rw [(h.maps_data hsrc hn hx).1] at hfree
    cases hfree
  · intro n hn
    have hpte := hcopy.others _ hsrc hne n hn
    refine ⟨hpte, fun k ↦ ?_⟩
    rw [userLoad, userLoad, Mem.maps, Mem.maps, hpte]
    refine Option.map_congr fun x hx ↦ ?_
    rw [hcopy.word x (h.maps_data hsrc hn hx).1]
  · intro sts hsts st hn n hn' k
    -- stores through the two directories keep the tables in order and the pages apart
    have hdirs : ∀ st ∈ sts, st.pgdir ∈ dirs ∧ st.page < 524288 := by
      intro st hst
      obtain ⟨hd | hd, hpage⟩ := hsts st hst
      · exact ⟨hd ▸ hdst, hpage⟩
      · exact ⟨hd ▸ hsrc, hpage⟩
    obtain ⟨hok, hpte⟩ := userStores_ok hcopy.ok hdirs
    have hapart' := hapart.congr (hpte _ hdst) (hpte _ hsrc)
    constructor
    · intro hd
      exact userLoad_userStore hok (hd ▸ hdst) hn hsrc (hd ▸ hapart') hn'
    · intro hd
      exact userLoad_userStore hok (hd ▸ hsrc) hn hdst (hd ▸ hapart'.symm) hn'

/-- A directory without level 0 directories maps nothing. -/
theorem maps_of_no_table0 {s : Mem} {d : ℕ} (h : ∀ i < 2, s.table0 d i = none) :
    ∀ n < 524288, s.maps (d, n) = none := by
  intro n hn
  have htable : s.table d (n / 512) = none := by
    rw [Mem.table, h _ (by omega), Option.bind_none]
  rw [Mem.maps, Mem.pte_of_no_table htable, target_zero]

/-- Two directories, and a page in the first of them. -/
def onePage : List PageCall := [.setupPgdir, .setupPgdir, .pgdirAllocPage 0x80400 0x200000 pteUser]

/-- An address space with one area, and an empty one. -/
def parentMm : MmStruct := ⟨0, [⟨1, 0x200000, 0x400000, 0⟩], 0x80400, 1⟩

/-- Whether a copy has been made. -/
def copied : Outcome Errno Vm (Option Errno × MmStruct) → Bool
  | .ok (none, _) _ => true
  | _ => false

/-- An address space as it is before the copy. -/
def childMm : MmStruct := ⟨2, [], 0x80401, 0⟩

theorem dupMmap_isolates_sample : ∃ (s s' : Vm) (x y : ℕ),
    s.mem.maps (0x80400, 512) = some x ∧ s'.mem.maps (0x80401, 512) = some y ∧ y ≠ x ∧
      s'.mem.word y = s.mem.word x ∧ ∀ k,
        userLoad (userStore s'.mem ⟨0x80401, 512, 0, 7⟩) 0x80400 512 k =
          userLoad s'.mem 0x80400 512 k := by
  have hcheck : ((PageState.follow lowestPage (fun _ ↦ 0) onePage
      (PageState.init (fun _ _ ↦ 0) (Finset.Icc 0x80400 0x80408))).map fun st ↦
        decide (0x80400 ∈ st.dirs ∧ 0x80401 ∈ st.dirs ∧ st.mem.table0 0x80401 0 = none ∧
          st.mem.table0 0x80401 1 = none ∧ st.mem.maps (0x80400, 512) = some 0x80402) &&
        ((List.range 1024).all fun r ↦ decide (r = 1 ∨ st.mem.table 0x80400 r = none)) &&
        copied ((dupMmap lowestPage (fun _ ↦ true) childMm parentMm).run ⟨st.mem, ∅, 3⟩)) =
      some true := by decide +kernel
  obtain ⟨st, hfollow, hst⟩ := Option.map_eq_some_iff.mp hcheck
  obtain ⟨hboth, hcopy⟩ := Bool.and_eq_true_iff.mp hst
  obtain ⟨hdec, hall⟩ := Bool.and_eq_true_iff.mp hboth
  obtain ⟨hsrc, hdst, hempty₀, hempty₁, hpage⟩ := of_decide_eq_true hdec
  have hempty : ∀ i < 2, st.mem.table0 0x80401 i = none := by
    intro i hi
    interval_cases i
    · exact hempty₀
    · exact hempty₁
  have htables : ∀ r < 1024, r = 1 ∨ st.mem.table 0x80400 r = none := fun r hr ↦
    of_decide_eq_true (List.all_eq_true.mp hall r (List.mem_range.mpr hr))
  obtain ⟨kind, hok⟩ := (PageState.run_of_follow .start hfollow).ok (by decide) fun _ _ ↦ rfl
  cases hrun : (dupMmap lowestPage (fun _ ↦ true) childMm parentMm).run ⟨st.mem, ∅, 3⟩ with
  | panic =>
    rw [hrun] at hcopy
    cases hcopy
  | error e s' =>
    rw [hrun] at hcopy
    cases hcopy
  | ok r s' =>
    obtain ⟨ret | e, dst'⟩ := r
    swap
    · rw [hrun] at hcopy
      cases hcopy
    have hareas : ∀ n < 524288, st.mem.maps (parentMm.pgdir, n) ≠ none →
        ∃ v ∈ parentMm.mmapList, v.Page n := by
      intro n hn hmaps
      refine ⟨_, List.mem_cons_self, ?_⟩
      rcases htables (n / 512) (by omega) with htable | htable
      · simp only [Vma.Page, pgSize]
        omega
      · rw [Mem.maps, parentMm, Mem.pte_of_no_table htable] at hmaps
        exact absurd target_zero hmaps
    have hsorted : parentMm.Sorted := List.pairwise_singleton _ _
    have hne : parentMm.pgdir ≠ childMm.pgdir := by decide
    obtain ⟨hcopied, -, -, hstores⟩ :=
      @dupMmap_isolates lowestPage (fun _ ↦ true) st.dirs kind childMm parentMm dst'
      ⟨st.mem, ∅, 3⟩ s'
        hok.page hsrc hdst hne (maps_of_no_table0 hempty) hsorted hareas hrun
    obtain ⟨y, hne, hy, -, hword, -⟩ := hcopied 512 (by decide) _ hpage
    refine ⟨⟨st.mem, ∅, 3⟩, s', _, y, hpage, hy, hne, hword, fun k ↦ ?_⟩
    have hstore := hstores [] (fun _ h ↦ absurd h List.not_mem_nil) ⟨0x80401, 512, 0, 7⟩ (by decide)
      512 (by decide) k
    exact hstore.1 rfl

end Fork

end Ucore.AddrSpace
