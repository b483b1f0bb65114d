import Ucore.Mm.PageRef

/-!
# Runs over page directories

What the routines of `kern/mm/pmm.c` do to any number of page directories: `page_insert`,
`page_remove`, `pgdir_alloc_page` and `unmap_range`, together with `alloc_page` and `setup_pgdir`
that provide the pages and the directories.

`Drop` is what a routine does that removes mappings, `Inserted` what one does that enters a page,
and `Settles` is what the two have in common: the page tables are in order again, a page whose last
mapping went is free, and no other page has become free. In every state of a run over an allocator
that answers with free pages the reference counts are exact; each call has its `Effect` on the
mappings. The allocator of the kernel is put in place of such a one in `DefaultPages`.
-/

namespace Ucore

open Prog RefCount

/-! ## The loop over a range -/

section RangeLoop

variable {A : PageSource} {d stop : ℕ} {body : ℕ → ℕ × ℕ → MemProg Unit} {I : ℕ → Mem → Prop}
  {E : Errno → Mem → Prop} {P : Prop}

/-- A range that is aligned is a range of pages. -/
theorem exists_pages {start stop : ℕ} (halign : start % pgSize = 0 ∧ stop % pgSize = 0)
    (huser : UserAccess start stop) :
    ∃ lo hi, start = lo * pgSize ∧ stop = hi * pgSize ∧ lo < hi ∧ hi ≤ 524288 := by
  have hpages : ∀ {a}, a % pgSize = 0 → a = a / pgSize * pgSize := by
    intro a ha
    rw [mul_comm]
    exact (Nat.mul_div_cancel' (Nat.dvd_of_mod_eq_zero ha)).symm
  refine ⟨start / pgSize, stop / pgSize, hpages halign.1, hpages halign.2, ?_, ?_⟩
  · have hlt := huser.2.1
    rw [hpages halign.1, hpages halign.2] at hlt
    exact Nat.lt_of_mul_lt_mul_right hlt
  · have hle := huser.2.2
    rw [userTop] at hle
    rw [pgSize]
    omega

/-- A page table that is missing takes the loop to its end or to the end of the range. -/
theorem range_skip (hskip : ∀ m s, I m s → m < stop → s.table d (m / 512) = none → I (m + 1) s)
    {m : ℕ} {s : Mem} (hI : I m s) (ht : s.table d (m / 512) = none) (k : ℕ)
    (hk : k ≤ (m / 512 + 1) * 512 - m) (hstop : m + k ≤ stop) : I (m + k) s := by
  induction k with
  | zero => exact hI
  | succ k ih =>
    have hsame : (m + k) / 512 = m / 512 := by omega
    exact hskip (m + k) s (ih (by omega) (by omega)) (by omega) (by rw [hsame, ht])

/-- The loop keeps what its body keeps from one page to the next. -/
theorem rangeLoop_ends (hstop : stop * pgSize ≤ userTop)
    (hI : ∀ m s, I m s → ∃ kind, Tables s kind ∧ kind d = .dir)
    (hskip : ∀ m s, I m s → m < stop → s.table d (m / 512) = none → I (m + 1) s)
    (hbody : ∀ m s f, I m s → m < stop → s.table d (m / 512) = some f →
      ((body (m * pgSize) (f, m % 512)).run s).Ends (fun _ t ↦ I (m + 1) t) E P)
    {fuel m : ℕ} {s : Mem} (hfuel : stop - m ≤ fuel) (hm : m < stop) (hs : I m s) :
    ((rangeLoop A d (stop * pgSize) body fuel (m * pgSize)).run s).Ends
    (fun _ t ↦ I stop t) E P := by
  induction fuel generalizing m s with
  | zero => omega
  | succ fuel ih =>
    have hdiv : ∀ j, j * pgSize / pgSize = j := fun j ↦ Nat.mul_div_cancel j (by decide)
    have hla : m * pgSize < userTop :=
      lt_of_lt_of_le (Nat.mul_lt_mul_of_pos_right hm (by decide)) hstop
    -- what is left once the next page is known
    have hrest : ∀ j t, m < j → I (min j stop) t →
        ((if j * pgSize ≠ 0 ∧ j * pgSize < stop * pgSize then
          rangeLoop A d (stop * pgSize) body fuel (j * pgSize) else pure ()).run t).Ends
          (fun _ t ↦ I stop t) E P := by
      intro j t hj ht
      have hpos : j * pgSize ≠ 0 := Nat.mul_ne_zero (by omega) (by decide)
      rcases lt_or_ge j stop with hlt | hge
      · have hmore : j * pgSize ≠ 0 ∧ j * pgSize < stop * pgSize :=
          ⟨hpos, Nat.mul_lt_mul_of_pos_right hlt (by decide)⟩
        rw [if_pos hmore]
        rw [min_eq_left hlt.le] at ht
        exact ih (by omega) hlt ht
      · have hdone : ¬(j * pgSize ≠ 0 ∧ j * pgSize < stop * pgSize) := by
          rintro ⟨-, hlt⟩
          exact absurd (Nat.lt_of_mul_lt_mul_right hlt) hge.not_gt
        rw [if_neg hdone]
        rwa [min_eq_right hge] at ht
    obtain ⟨kind, htables, hd⟩ := hI m s hs
    have hlookup := getPte_lookup (A := A) htables hd hla
    rw [hdiv m] at hlookup
    rw [rangeLoop]
    cases ht : s.table d (m / 512) with
    | none =>
      have hnext : (m * pgSize + ptSize) / ptSize * ptSize = (m / 512 + 1) * 512 * pgSize := by
        simp only [pgSize, ptSize]
        omega
      have hstep : (rangeStep A d body (m * pgSize)).run s =
          .ok ((m / 512 + 1) * 512 * pgSize) s := by
        rw [ht] at hlookup
        rw [rangeStep, bind_of_ok hlookup, ← hnext]
        rfl
      rw [bind_of_ok hstep]
      refine hrest _ s (by omega) ?_
      have hskip' := range_skip hskip hs ht (min ((m / 512 + 1) * 512) stop - m) (by omega)
          (by omega)
      rwa [Nat.add_sub_cancel' (by omega)] at hskip'
    | some f =>
      have hnext : m * pgSize + pgSize = (m + 1) * pgSize := by ring
      have hstep : ((rangeStep A d body (m * pgSize)).run s).Ends
          (fun j t ↦ j = (m + 1) * pgSize ∧ I (m + 1) t) E P := by
        rw [ht] at hlookup
        rw [rangeStep, bind_of_ok hlookup]
        refine ends_bind (hbody m s f hs hm ht) fun _ t ht ↦ ?_
        exact ⟨hnext, ht⟩
      refine ends_bind hstep ?_
      rintro j t ⟨rfl, ht⟩
      refine hrest (m + 1) t (Nat.lt_succ_self m) ?_
      rwa [min_eq_left (Nat.succ_le_of_lt hm)]

end RangeLoop

/-! ## Dropping mappings -/

/-- The mappings of the directory `d` at the page numbers `P` are gone, pages without mappings left
are free, and nothing else has changed. -/
structure Drop (d : ℕ) (P : ℕ → Prop) (dirs : Finset ℕ) (s : Mem) (kind : ℕ → FrameKind) (s' : Mem)
    (kind' : ℕ → FrameKind) : Prop where
  ok : PageOk s' kind' dirs
  inside : ∀ m < 524288, P m → s'.maps (d, m) = none
  outside : ∀ e ∈ dirs, ∀ m < 524288, ¬(e = d ∧ P m) → s'.pte e m = s.pte e m
  kinds : ∀ x, kind' x = kind x ∨ kind x = .data ∧ kind' x = .free ∧ 0 < s.mapped dirs x
  freed : ∀ x, 0 < s.mapped dirs x → s'.mapped dirs x = 0 → kind' x = .free
  le : ∀ x, s'.mapped dirs x ≤ s.mapped dirs x
  word : ∀ x, (∀ r, kind x ≠ .pt d r) → s'.word x = s.word x

namespace Drop

variable {d : ℕ} {P Q : ℕ → Prop} {dirs : Finset ℕ} {s s' s'' : Mem}
  {kind kind' kind'' : ℕ → FrameKind}

theorem refl (h : PageOk s kind dirs) (hP : ∀ m < 524288, P m → s.maps (d, m) = none) :
    Drop d P dirs s kind s kind where
  ok := h
  inside := hP
  outside _ _ _ _ _ := rfl
  kinds _ := .inl rfl
  freed _ hx hx' := absurd hx' hx.ne'
  le _ := le_rfl
  word _ _ := rfl

theorem kind_ne {x : ℕ} {k : FrameKind} (h : Drop d P dirs s kind s' kind') (hx : kind x = k)
    (hk : k ≠ .data) : kind' x = k := by
  rcases h.kinds x with hsame | ⟨hdata, -⟩
  · rw [hsame, hx]
  · rw [hx] at hdata
    exact absurd hdata hk

/-- Only pages of data become free. -/
theorem kind_iff {x : ℕ} {k : FrameKind} (h : Drop d P dirs s kind s' kind') (hk : k ≠ .data)
    (hk' : k ≠ .free) : kind' x = k ↔ kind x = k := by
  refine ⟨fun hx ↦ ?_, fun hx ↦ h.kind_ne hx hk⟩
  rcases h.kinds x with hsame | ⟨-, hfree, -⟩
  · rw [← hsame, hx]
  · rw [hfree] at hx
    exact absurd hx.symm hk'

theorem trans (h : Drop d P dirs s kind s' kind') (hd : d ∈ dirs)
    (h' : Drop d Q dirs s' kind' s'' kind'') :
    Drop d (fun m ↦ P m ∨ Q m) dirs s kind s'' kind'' where
  ok := h'.ok
  inside m hm hPQ := by
    by_cases hQ : Q m
    · exact h'.inside m hm hQ
    · have hsame := h'.outside d hd m hm fun hcon ↦ hQ hcon.2
      rw [Mem.maps, hsame]
      exact h.inside m hm (hPQ.resolve_right hQ)
  outside e he m hm hout := by
    rw [h'.outside e he m hm fun hcon ↦ hout ⟨hcon.1, .inr hcon.2⟩,
      h.outside e he m hm fun hcon ↦ hout ⟨hcon.1, .inl hcon.2⟩]
  kinds x := by
    rcases h.kinds x with hsame | ⟨hdata, hfree, hpos⟩
    · rcases h'.kinds x with hsame' | ⟨hdata, hfree, hpos⟩
      · exact .inl (hsame'.trans hsame)
      · exact .inr ⟨hsame ▸ hdata, hfree, hpos.trans_le (h.le x)⟩
    · exact .inr ⟨hdata, h'.kind_ne hfree (by rintro ⟨⟩), hpos⟩
  freed x hx hx' := by
    rcases Nat.eq_zero_or_pos (s'.mapped dirs x) with hzero | hpos
    · exact h'.kind_ne (h.freed x hx hzero) (by rintro ⟨⟩)
    · exact h'.freed x hpos hx'
  le x := (h'.le x).trans (h.le x)
  word x hx := by
    have hx' : ∀ r, kind' x ≠ .pt d r := fun r hr ↦
      hx r ((h.kind_iff (by rintro ⟨⟩) (by rintro ⟨⟩)).mp hr)
    rw [h'.word x hx', h.word x hx]

theorem mono (h : Drop d P dirs s kind s' kind') (hPQ : ∀ m < 524288, P m ↔ Q m) :
    Drop d Q dirs s kind s' kind' :=
  { h with
    inside := fun m hm hQ ↦ h.inside m hm ((hPQ m hm).mpr hQ)
    outside := fun e he m hm hout ↦
      h.outside e he m hm fun hcon ↦ hout ⟨hcon.1, (hPQ m hm).mp hcon.2⟩ }

/-- A place that is dropped, or that maps nothing, changes no table. -/
theorem table (h : Drop d P dirs s kind s' kind') (h₀ : PageOk s kind dirs) {e r : ℕ}
    (he : e ∈ dirs) (hr : r < 1024) : s'.table e r = s.table e r :=
  h₀.tables.table_congr h.ok.tables (h₀.kind_dir he) (h.ok.kind_dir he) hr fun _ ↦
    h.kind_iff (by rintro ⟨⟩) (by rintro ⟨⟩)

end Drop

section Remove

variable {A : PageSource} {s : Mem} {kind : ℕ → FrameKind} {dirs : Finset ℕ} {d n f : ℕ}

/-- `page_remove_pte` drops the mapping of one place. -/
theorem pageRemovePte_run (h : PageOk s kind dirs) (hf : kind f = .pt d (n / 512)) :
    ∃ s' kind', (pageRemovePte (f, n % 512)).run s = .ok () s' ∧
      Drop d (fun m ↦ m = n) dirs s kind s' kind' := by
  obtain ⟨hd, hn⟩ := h.dir_of_pt hf
  have hword := h.word_eq_pte hf
  cases hp : s.maps (d, n) with
  | none =>
    refine ⟨s, kind, pageRemovePte_none (by rw [hword]; exact hp), .refl h ?_⟩
    rintro m - rfl
    exact hp
  | some p =>
    have hpos : 0 < s.mapped dirs p := uses_pos (Mem.mem_places.mpr ⟨hd, hn⟩) hp
    obtain ⟨hdata, hlt⟩ := h.maps_data hd hn hp
    have hzero : ∀ y, target (0 : BitVec 64) = some y → kind y = .data ∧ y < npage :=
      fun y hy ↦ absurd hy.symm (Option.some_ne_none y)
    have hok := h.drop hf hp
    have hpte : ∀ e ∈ dirs, ∀ m < 524288, (s.dropPte p f (n % 512)).pte e m =
        if e = d ∧ m = n then 0 else s.pte e m := by
      intro e he m hm
      rw [Mem.pte_eq_of_word_eq (Mem.dropPte_word p f _) e m]
      exact h.pte_setWord hf hzero he hm
    -- only the page that was mapped there loses a mapping
    have hcount : ∀ y, ((s.dropPte p f (n % 512)).mapped dirs y : ℤ) =
        s.mapped dirs y - if y = p then 1 else 0 := by
      intro y
      have hset : (s.dropPte p f (n % 512)).mapped dirs y =
          (s.setWord f (n % 512) 0).mapped dirs y :=
        PageOk.mapped_congr fun e _ m _ ↦ Mem.pte_eq_of_word_eq (Mem.dropPte_word p f _) e m
      rw [hset, h.mapped_setWord hf hzero, hp, target_zero, if_neg (Option.some_ne_none y).symm,
        add_zero]
      simp only [Option.some.injEq, eq_comm]
    refine ⟨_, _, pageRemovePte_some (by rw [hword]; exact hp) hlt (h.notMem_free hpos), hok, ?_,
      ?_, ?_, ?_, ?_, ?_⟩
    · rintro m hm rfl
      rw [Mem.maps, hpte d hd m hm, if_pos ⟨rfl, rfl⟩]
      rfl
    · intro e he m hm hout
      rw [hpte e he m hm, if_neg hout]
    · intro x
      rw [PageOk.dropKind]
      -- the page is freed if this was its last mapping
      split_ifs with hone
      · rcases eq_or_ne x p with rfl | hne
        · exact .inr ⟨hdata, Function.update_self _ _ _, hpos⟩
        · exact .inl (Function.update_of_ne hne _ _)
      · exact .inl rfl
    · intro x hx hx'
      have hx'' := hcount x
      rw [hx', Nat.cast_zero] at hx''
      rcases eq_or_ne x p with rfl | hne
      · rw [if_pos rfl, ← h.ref_data hdata] at hx''
        rw [PageOk.dropKind, if_pos (by omega), Function.update_self]
      · rw [if_neg hne, sub_zero] at hx''
        omega
    · intro x
      have hx := hcount x
      split_ifs at hx <;> omega
    · intro x hx
      rw [Mem.dropPte_word]
      exact Function.update_of_ne (fun heq ↦ hx (n / 512) (heq ▸ hf)) _ _

/-- `unmap_range` drops the mappings of its range. -/
theorem unmapRange_run (h : PageOk s kind dirs) (hd : d ∈ dirs) {start stop : ℕ}
    (halign : start % pgSize = 0 ∧ stop % pgSize = 0) (huser : UserAccess start stop) :
    ∃ s' kind', (unmapRange A d start stop).run s = .ok () s' ∧
      Drop d (fun m ↦ start / pgSize ≤ m ∧ m < stop / pgSize) dirs s kind s' kind' := by
  obtain ⟨lo, hi, rfl, rfl, hlt, htop⟩ := exists_pages halign huser
  have hdiv : ∀ j, j * pgSize / pgSize = j := fun j ↦ Nat.mul_div_cancel j (by decide)
  let I : ℕ → Mem → Prop := fun m t ↦
    lo ≤ m ∧ ∃ kind', Drop d (fun j ↦ lo ≤ j ∧ j < m) dirs s kind t kind'
  have hloop : ((rangeLoop A d (hi * pgSize) (fun _ ptep ↦ unmapPte ptep)
      (rangeFuel (lo * pgSize) (hi * pgSize)) (lo * pgSize)).run s).Ends (fun _ t ↦ I hi t)
      (fun _ _ ↦ False) False := by
    refine rangeLoop_ends (I := I) huser.2.2 ?_ ?_ ?_ ?_ hlt ?_
    · rintro m t ⟨-, kind', hdrop⟩
      exact ⟨kind', hdrop.ok.tables, hdrop.ok.kind_dir hd⟩
    · rintro m t ⟨hm, kind', hdrop⟩ hmhi ht
      refine ⟨by omega, kind', ?_⟩
      have hself : Drop d (fun j ↦ j = m) dirs t kind' t kind' := .refl hdrop.ok fun j _ hj ↦ by
        rw [hj, Mem.maps, Mem.pte_of_no_table ht]
        rfl
      exact (hdrop.trans hd hself).mono fun j _ ↦ by omega
    · rintro m t f ⟨hm, kind', hdrop⟩ hmhi ht
      have hf := hdrop.ok.tables.kind_table (hdrop.ok.kind_dir hd) (by omega) ht
      rw [unmapPte, get_bind_run]
      by_cases hword : t.word f (m % 512) ≠ 0
      · obtain ⟨t', kind'', hrun, hone⟩ := pageRemovePte_run hdrop.ok hf
        rw [if_pos hword, hrun]
        exact ⟨by omega, kind'', (hdrop.trans hd hone).mono fun j _ ↦ by omega⟩
      · rw [if_neg hword]
        refine ⟨by omega, kind', ?_⟩
        have hself : Drop d (fun j ↦ j = m) dirs t kind' t kind' := .refl hdrop.ok fun j _ hj ↦ by
          rw [hj, Mem.maps, ← hdrop.ok.word_eq_pte hf, not_not.mp hword]
          rfl
        exact (hdrop.trans hd hself).mono fun j _ ↦ by omega
    · rw [rangeFuel, ← Nat.sub_mul, hdiv]
      omega
    · exact ⟨le_rfl, kind, .refl h fun m _ hm ↦ absurd hm.2 (by omega)⟩
  obtain ⟨⟨⟩, s', hrun, -, kind', hdrop⟩ := hloop.exists_ok
  refine ⟨s', kind', ?_, ?_⟩
  · rw [unmapRange, assert_bind_run halign, assert_bind_run huser, hrun]
  · rw [hdiv, hdiv]
    exact hdrop

end Remove

/-! ## Entering pages -/

/-- Pages without mappings left are free, and no page that is mapped, or was not, has become
free. -/
structure Settles (dirs dirs' : Finset ℕ) (s : Mem) (kind : ℕ → FrameKind) (s' : Mem)
    (kind' : ℕ → FrameKind) : Prop where
  ok : PageOk s' kind' dirs'
  freed : ∀ x, 0 < s.mapped dirs x → s'.mapped dirs' x = 0 → kind' x = .free
  of_freed : ∀ x, kind x ≠ .free → kind' x = .free → 0 < s.mapped dirs x
  stays : ∀ x, kind x ≠ .free → kind' x = kind x ∨ kind' x = .free

namespace Settles

variable {dirs dirs' : Finset ℕ} {s s' s'' : Mem} {kind kind' kind'' : ℕ → FrameKind}

/-- A page gets free in the step that drops its last mapping, and in no other. -/
theorem free_iff (h : Settles dirs dirs' s kind s' kind') (h₀ : PageOk s kind dirs) (x : ℕ) :
    (x ∉ s.free ∧ x ∈ s'.free) ↔ 0 < s.mapped dirs x ∧ s'.mapped dirs' x = 0 := by
  rw [← h₀.tables.free, ← h.ok.tables.free]
  constructor
  · rintro ⟨hx, hx'⟩
    exact ⟨h.of_freed x hx hx', h.ok.mapped_eq_zero (by rw [hx']; rintro ⟨⟩)⟩
  · rintro ⟨hpos, hzero⟩
    refine ⟨?_, h.freed x hpos hzero⟩
    rw [(h₀.kind_of_mapped hpos).1]
    rintro ⟨⟩

theorem of_drop {d : ℕ} {P : ℕ → Prop} (h : Drop d P dirs s kind s' kind') :
    Settles dirs dirs s kind s' kind' where
  ok := h.ok
  freed := h.freed
  of_freed x hx hx' := by
    rcases h.kinds x with hsame | ⟨-, -, hpos⟩
    · exact absurd (hsame ▸ hx') hx
    · exact hpos
  stays x _ := (h.kinds x).imp_right fun hfree ↦ hfree.2.1

/-- Before pages are dropped, free ones may have been put to use. -/
theorem of_used (h' : Settles dirs dirs' s' kind' s'' kind'')
    (hkept : ∀ x, kind x ≠ .free → kind' x = kind x)
    (hmapped : ∀ x, s'.mapped dirs x = s.mapped dirs x) : Settles dirs dirs' s kind s'' kind'' where
  ok := h'.ok
  freed x hx := h'.freed x (by rwa [hmapped])
  of_freed x hx hx'' := by
    rw [← hmapped]
    exact h'.of_freed x (by rwa [hkept x hx]) hx''
  stays x hx := by
    have hstays := h'.stays x (by rwa [hkept x hx])
    rwa [hkept x hx] at hstays

/-- Nothing is dropped. -/
theorem of_le (h : PageOk s' kind' dirs') (hkept : ∀ x, kind x ≠ .free → kind' x = kind x)
    (hmapped : ∀ x, s.mapped dirs x ≤ s'.mapped dirs' x) : Settles dirs dirs' s kind s' kind' where
  ok := h
  freed x hx hx' := absurd (hmapped x) (by omega)
  of_freed x hx hx' := absurd ((hkept x hx).symm.trans hx') hx
  stays x hx := .inl (hkept x hx)

end Settles

/-- A page is mapped at one place of a directory; tables were made on the way to it. -/
structure Inserted (d n : ℕ) (w : BitVec 64) (dirs : Finset ℕ) (s : Mem) (kind : ℕ → FrameKind)
    (s' : Mem) (kind' : ℕ → FrameKind) : Prop extends Settles dirs dirs s kind s' kind' where
  here : s'.pte d n = w
  elsewhere : ∀ e ∈ dirs, ∀ m < 524288, ¬(e = d ∧ m = n) → s'.pte e m = s.pte e m
  kinds : ∀ x, kind x ≠ .free → kind' x = kind x ∨ kind' x = .free ∧ s.maps (d, n) = some x
  made : ∀ x, kind x = .free → kind' x = .free ∨ OnPath d n (kind' x)
  word : ∀ x, kind x = .data → s'.word x = s.word x

/-- The counts after a page was mapped where nothing was mapped. -/
theorem Inserted.mapped_eq {d n x : ℕ} {w : BitVec 64} {dirs : Finset ℕ} {s s' : Mem}
    {kind kind' : ℕ → FrameKind} (h : Inserted d n w dirs s kind s' kind') (hd : d ∈ dirs)
    (hn : n < 524288) (hnone : s.maps (d, n) = none) :
    s'.mapped dirs x = s.mapped dirs x + if target w = some x then 1 else 0 := by
  have hcongr : s'.mapped dirs x =
      uses (Mem.places dirs) (Function.update s.maps (d, n) (target w)) x := by
    refine uses_congr fun q hq ↦ ?_
    obtain ⟨he, hm⟩ := Mem.mem_places.mp hq
    by_cases hqn : q = (d, n)
    · rw [hqn, Function.update_self, Mem.maps, h.here]
    · rw [Function.update_of_ne hqn, Mem.maps, Mem.maps, h.elsewhere q.1 he q.2 hm fun hcon ↦
        hqn (Prod.ext hcon.1 hcon.2)]
  have hmem : (d, n) ∈ Mem.places dirs := Mem.mem_places.mpr ⟨hd, hn⟩
  have hcount := uses_update (g := s.maps) (x := x) hmem (target w)
  rw [← hcongr, hnone, if_neg (Option.some_ne_none x).symm, sub_zero] at hcount
  exact_mod_cast hcount

section Insert

variable {A : PageSource} {s : Mem} {kind : ℕ → FrameKind} {dirs : Finset ℕ} {d n f page : ℕ}
  {perm : BitVec 64}

/-- A word that leads to a page of data leads nowhere else. -/
theorem data_of_target {w : BitVec 64} (hw : target w = some page) (hpage : kind page = .data)
    (hlt : page < npage) : ∀ y, target w = some y → kind y = .data ∧ y < npage := by
  intro y hy
  rw [hw] at hy
  cases hy
  exact ⟨hpage, hlt⟩

/-- `page_insert` where nothing was mapped. -/
theorem insertAt_none {w : BitVec 64} (h : PageOk s kind dirs) (hf : kind f = .pt d (n / 512))
    (hpage : kind page = .data) (hlt : page < npage) (hw : target w = some page)
    (hp : s.maps (d, n) = none) :
    (dropOld page (f, n % 512)).run (s.setRef page (s.ref page + 1)) =
        .ok () (s.setRef page (s.ref page + 1)) ∧
      Inserted d n w dirs s kind (s.mapPte page f (n % 512) w) kind := by
  obtain ⟨hd, hn⟩ := h.dir_of_pt hf
  have hdata := data_of_target hw hpage hlt
  have hok := h.map hf hp hpage hlt hw
  refine ⟨?_, ⟨.of_le hok (fun _ _ ↦ rfl) ?_, ?_, ?_, fun _ _ ↦ .inl rfl, fun _ hx ↦ .inl hx, ?_⟩⟩
  · have hold : target ((s.setRef page (s.ref page + 1)).word f (n % 512)) = none := by
      rw [Mem.setRef_word, h.word_eq_pte hf]
      exact hp
    rw [dropOld, get_bind_run, if_neg (isValid_eq_false_of_target hold)]
    rfl
  · intro x
    have hcount := h.mapped_setWord (x := x) hf hdata
    rw [hp, if_neg (Option.some_ne_none x).symm, sub_zero] at hcount
    have hset : (s.mapPte page f (n % 512) w).mapped dirs x =
      (s.setWord f (n % 512) w).mapped dirs x := rfl
    rw [hset]
    split_ifs at hcount <;> omega
  · have hpte := h.pte_setWord hf hdata hd hn
    rwa [if_pos ⟨rfl, rfl⟩] at hpte
  · intro e he m hm hout
    have hpte := h.pte_setWord hf hdata he hm
    rwa [if_neg hout] at hpte
  · intro x hx
    exact Function.update_of_ne (Tables.ne_of_kind hx hf (by rintro ⟨⟩)) _ _

/-- `page_insert` where the same page was mapped: its count goes up and down again. -/
theorem insertAt_same {w : BitVec 64} (h : PageOk s kind dirs) (hf : kind f = .pt d (n / 512))
    (hpage : kind page = .data) (hlt : page < npage) (hw : target w = some page)
    (hp : s.maps (d, n) = some page) :
    (dropOld page (f, n % 512)).run (s.setRef page (s.ref page + 1)) = .ok () s ∧
      Inserted d n w dirs s kind (s.setWord f (n % 512) w) kind := by
  obtain ⟨hd, hn⟩ := h.dir_of_pt hf
  have hdata := data_of_target hw hpage hlt
  have hok := h.remap hf hp hw
  refine ⟨?_, ⟨.of_le hok (fun _ _ ↦ rfl) ?_, ?_, ?_, fun _ _ ↦ .inl rfl, fun _ hx ↦ .inl hx, ?_⟩⟩
  · have hold : target ((s.setRef page (s.ref page + 1)).word f (n % 512)) = some page := by
      rw [Mem.setRef_word, h.word_eq_pte hf]
      exact hp
    rw [dropOld, get_bind_run, if_pos (isValid_of_target hold).1,
      bind_of_ok (pte2page_run hold hlt), if_pos rfl, run_modify]
    simp only [Mem.setRef, Function.update_self, Function.update_idem, add_sub_cancel_right,
      Function.update_eq_self]
  · intro x
    have hcount := h.mapped_setWord (x := x) hf hdata
    rw [hp, hw, sub_add_cancel] at hcount
    omega
  · have hpte := h.pte_setWord hf hdata hd hn
    rwa [if_pos ⟨rfl, rfl⟩] at hpte
  · intro e he m hm hout
    have hpte := h.pte_setWord hf hdata he hm
    rwa [if_neg hout] at hpte
  · intro x hx
    exact Function.update_of_ne (Tables.ne_of_kind hx hf (by rintro ⟨⟩)) _ _

/-- `page_insert` where another page was mapped, which is dropped first. -/
theorem insertAt_other {w : BitVec 64} {p : ℕ} (h : PageOk s kind dirs)
    (hf : kind f = .pt d (n / 512)) (hpage : kind page = .data) (hlt : page < npage)
    (hw : target w = some page) (hp : s.maps (d, n) = some p) (hne : p ≠ page) :
    ∃ kind₁, (dropOld page (f, n % 512)).run (s.setRef page (s.ref page + 1)) =
        .ok () ((s.dropPte p f (n % 512)).setRef page (s.ref page + 1)) ∧
      Inserted d n w dirs s kind ((s.dropPte p f (n % 512)).mapPte page f (n % 512) w) kind₁ := by
  obtain ⟨hd, hn⟩ := h.dir_of_pt hf
  obtain ⟨hpdata, hplt⟩ := h.maps_data hd hn hp
  have hpos : 0 < s.mapped dirs p := uses_pos (Mem.mem_places.mpr ⟨hd, hn⟩) hp
  have hsub := h.mapped_dropPte hf hp
  obtain ⟨s₁, kind₁, hrun₁, hdrop₁⟩ := pageRemovePte_run h hf
  -- dropping the old mapping and counting the new one touch different pages, in either order
  obtain rfl : s₁ = s.dropPte p f (n % 512) := by
    rw [pageRemovePte_some (by rw [h.word_eq_pte hf]; exact hp) hplt (h.notMem_free hpos)] at hrun₁
    exact (Outcome.ok.inj hrun₁).2.symm
  have hf₁ : kind₁ f = .pt d (n / 512) := hdrop₁.kind_ne hf (by rintro ⟨⟩)
  have hpage₁ : kind₁ page = .data := by
    rcases hdrop₁.kinds page with hkind | ⟨-, hfree, hmapped⟩
    · rw [hkind, hpage]
    · -- a page that is freed here had its last mapping at this place
      have hzero := hdrop₁.ok.mapped_eq_zero (x := page) (by rw [hfree]; rintro ⟨⟩)
      have hcount := hsub page
      rw [if_neg (Ne.symm hne), hzero] at hcount
      omega
  have hdata := data_of_target hw hpage₁ hlt
  have hnone : (s.dropPte p f (n % 512)).maps (d, n) = none := hdrop₁.inside n hn rfl
  have hok := hdrop₁.ok.map hf₁ hnone hpage₁ hlt hw
  have hcount : ∀ x, (((s.dropPte p f (n % 512)).mapPte page f (n % 512) w).mapped dirs x : ℤ) =
      (s.dropPte p f (n % 512)).mapped dirs x + if x = page then 1 else 0 := by
    intro x
    have hset : ((s.dropPte p f (n % 512)).mapPte page f (n % 512) w).mapped dirs x =
      ((s.dropPte p f (n % 512)).setWord f (n % 512) w).mapped dirs x := rfl
    rw [hset, hdrop₁.ok.mapped_setWord hf₁ hdata, hnone, hw,
      if_neg (Option.some_ne_none x).symm, sub_zero]
    simp only [Option.some.injEq, eq_comm]
  refine ⟨kind₁, ?_, ⟨⟨hok, ?_, ?_, fun x _ ↦ (hdrop₁.kinds x).imp_right fun hfree ↦ hfree.2.1⟩,
    ?_, ?_, ?_, ?_, ?_⟩⟩
  · have hold : target ((s.setRef page (s.ref page + 1)).word f (n % 512)) = some p := by
      rw [Mem.setRef_word, h.word_eq_pte hf]
      exact hp
    have hremove : (pageRemovePte (f, n % 512)).run (s.setRef page (s.ref page + 1)) =
        .ok () ((s.dropPte p f (n % 512)).setRef page (s.ref page + 1)) := by
      rw [pageRemovePte_some hold hplt (h.notMem_free hpos), Mem.dropPte_setRef (Ne.symm hne)]
    rw [dropOld, get_bind_run, if_pos (isValid_of_target hold).1,
      bind_of_ok (pte2page_run hold hplt), if_neg hne, hremove]
  · intro x hx hx'
    have h₁ := hcount x
    rw [hx'] at h₁
    refine hdrop₁.freed x hx ?_
    split_ifs at h₁ <;> omega
  · intro x hx hx'
    rcases hdrop₁.kinds x with hkind | ⟨-, -, hmapped⟩
    · exact absurd (hkind ▸ hx') hx
    · exact hmapped
  · have hpte := hdrop₁.ok.pte_setWord hf₁ hdata hd hn
    rwa [if_pos ⟨rfl, rfl⟩] at hpte
  · intro e he m hm hout
    have hpte := hdrop₁.ok.pte_setWord hf₁ hdata he hm
    rw [if_neg hout] at hpte
    exact hpte.trans (hdrop₁.outside e he m hm hout)
  · intro x hx
    rcases hdrop₁.kinds x with hkind | ⟨-, hfree, hmapped⟩
    · exact .inl hkind
    · refine .inr ⟨hfree, ?_⟩
      have hzero := hdrop₁.ok.mapped_eq_zero (x := x) (by rw [hfree]; rintro ⟨⟩)
      have h₁ := hsub x
      rw [hzero] at h₁
      split_ifs at h₁ with hxp
      · rw [hxp]
        exact hp
      · omega
  · intro x hx
    rcases hdrop₁.kinds x with hkind | ⟨hdata', -⟩
    · exact .inl (hkind.trans hx)
    · rw [hx] at hdata'
      cases hdata'
  · intro x hx
    have hkind : ∀ r, kind x ≠ .pt d r := fun r hr ↦ by
      rw [hx] at hr
      cases hr
    rw [← hdrop₁.word x hkind]
    exact Function.update_of_ne (Tables.ne_of_kind hx hf (by rintro ⟨⟩)) _ _

/-- What `page_insert` does once it has the entry. -/
theorem insertAt_run (h : PageOk s kind dirs) (hf : kind f = .pt d (n / 512))
    (hpage : kind page = .data) (hlt : page < npage) (hperm : IsType perm) :
    ∃ s' kind', (do
        Prog.modify fun s : Mem ↦ s.setRef page (s.ref page + 1)
        dropOld page (f, n % 512)
        Prog.modify fun s ↦ s.setWord f (n % 512) (pteCreate page (pteV ||| perm)) :
        MemProg Unit).run s = .ok () s' ∧
      Inserted d n (pteCreate page (pteV ||| perm)) dirs s kind s' kind' := by
  have hw : target (pteCreate page (pteV ||| perm)) = some page :=
    target_pteCreate hlt hperm.or_valid
  cases hp : s.maps (d, n) with
  | none =>
    obtain ⟨hdrop, hins⟩ := insertAt_none h hf hpage hlt hw hp
    refine ⟨_, _, ?_, hins⟩
    rw [modify_bind_run, bind_of_ok hdrop]
    rfl
  | some p =>
    by_cases hsame : p = page
    · subst hsame
      obtain ⟨hdrop, hins⟩ := insertAt_same h hf hpage hlt hw hp
      refine ⟨_, _, ?_, hins⟩
      rw [modify_bind_run, bind_of_ok hdrop]
      rfl
    · obtain ⟨kind₁, hdrop, hins⟩ := insertAt_other h hf hpage hlt hw hp hsame
      refine ⟨_, kind₁, ?_, hins⟩
      rw [modify_bind_run, bind_of_ok hdrop, run_modify, Mem.mapPte,
        Mem.dropPte_ref_of_ne (Ne.symm hsame)]

/-- Tables that were made first do not matter. -/
theorem Inserted.of_grow {w : BitVec 64} {s₁ s' : Mem} {kind₁ kind' : ℕ → FrameKind}
    (hgrow : Grow (OnPath d n) s kind s₁ kind₁) (h₀ : PageOk s kind dirs) (hd : d ∈ dirs)
    (hn : n < 524288) (h : Inserted d n w dirs s₁ kind₁ s' kind') :
    Inserted d n w dirs s kind s' kind' := by
  have hpte : ∀ e ∈ dirs, ∀ m < 524288, s₁.pte e m = s.pte e m := fun e he m hm ↦
    hgrow.pte h₀.tables (h₀.kind_dir he) hm
  have hkept : ∀ x, kind x ≠ .free → kind₁ x ≠ .free := fun x hx ↦ by rwa [hgrow.kept x hx]
  refine ⟨h.toSettles.of_used hgrow.kept fun x ↦ PageOk.mapped_congr hpte, h.here, ?_, ?_, ?_, ?_⟩
  · intro e he m hm hout
    rw [h.elsewhere e he m hm hout, hpte e he m hm]
  · intro x hx
    have hkinds := h.kinds x (hkept x hx)
    rwa [hgrow.kept x hx, Mem.maps, hpte d hd n hn] at hkinds
  · intro x hx
    rcases hgrow.made x hx with hfree | hmade
    · exact h.made x hfree
    · have hne : kind₁ x ≠ .free := by
        rcases hmade with hk | hk <;> rw [hk] <;> rintro ⟨⟩
      rcases h.kinds x hne with hsame | ⟨hfree, -⟩
      · rw [hsame]
        exact .inr hmade
      · exact .inl hfree
  · intro x hx
    rw [h.word x (by rw [hgrow.kept x (by rw [hx]; rintro ⟨⟩), hx]), hgrow.word_data x hx]

/-- `page_insert` maps the page, or there was no page for a table. -/
theorem pageInsert_run {la : ℕ} (h : PageOk s kind dirs) (hd : d ∈ dirs) (hla : la < userTop)
    (hpage : kind page = .data) (hlt : page < npage) (hperm : IsType perm) :
    ∃ s' kind', ((pageInsert A d page la perm).run s = .error .noMem s' ∧
        Grow (OnPath d (la / pgSize)) s kind s' kind') ∨
      ((pageInsert A d page la perm).run s = .ok () s' ∧
        Inserted d (la / pgSize) (pteCreate page (pteV ||| perm)) dirs s kind s' kind') := by
  obtain ⟨s₁, kind₁, hgrow, hrun | ⟨f, hf, hrun⟩⟩ :=
    getPte_create (A := A) h.tables (h.kind_dir hd) hla
  · refine ⟨s₁, kind₁, .inl ⟨?_, hgrow⟩⟩
    rw [pageInsert, bind_of_ok hrun]
    rfl
  · have hok := h.grow hgrow fun _ ↦ PageOk.onPath_ne
    have hpage₁ : kind₁ page = .data := by rw [hgrow.kept page (by rw [hpage]; rintro ⟨⟩), hpage]
    obtain ⟨s', kind', hrun', hins⟩ := insertAt_run hok hf hpage₁ hlt hperm
    refine ⟨s', kind', .inr ⟨?_, hins.of_grow hgrow h hd (page_lt hla)⟩⟩
    rw [pageInsert, bind_of_ok hrun]
    exact hrun'

/-- `pgdir_alloc_page` maps a page that was free, or changes no mapping. -/
theorem pgdirAllocPage_run {la : ℕ} (h : PageOk s kind dirs) (hd : d ∈ dirs) (hla : la < userTop)
    (hperm : IsType perm) :
    ∃ s' kind', Settles dirs dirs s kind s' kind' ∧
      (((pgdirAllocPage A d la perm).run s = .ok none s' ∧
          ∀ e ∈ dirs, ∀ m < 524288, s'.pte e m = s.pte e m) ∨
        ∃ page, kind page = .free ∧ kind' page = .data ∧
          (pgdirAllocPage A d la perm).run s = .ok (some page) s' ∧
          s'.pte d (la / pgSize) = pteCreate page (pteV ||| perm) ∧
          ∀ e ∈ dirs, ∀ m < 524288, ¬(e = d ∧ m = la / pgSize) → s'.pte e m = s.pte e m) := by
  rcases allocPage_run A s with hrun | ⟨page, hfree, hrun⟩
  · have hgrow : Grow (OnPath d (la / pgSize)) s kind s.ask kind := .ask h.tables
    refine ⟨s.ask, kind, .of_le (h.grow hgrow fun _ ↦ PageOk.onPath_ne) (fun _ _ ↦ rfl)
      fun _ ↦ le_rfl, .inl ⟨?_, fun _ _ _ _ ↦ rfl⟩⟩
    rw [pgdirAllocPage, bind_of_ok hrun]
    rfl
  · have hpage : kind page = .free := (h.tables.free page).mpr hfree
    obtain ⟨hok₁, hmapped₁⟩ := h.take hpage
    -- `page_insert` sees the page as one in use that is mapped nowhere
    have hself : Function.update kind page .data page = .data := Function.update_self _ _ _
    have hkept₁ : ∀ x, kind x ≠ .free → Function.update kind page .data x = kind x := fun x hx ↦
      Tables.kind_update_old hpage rfl hx
    obtain ⟨s₂, kind₂, ⟨hins, hgrow⟩ | ⟨hins, hinserted⟩⟩ :=
      pageInsert_run (A := A) hok₁ hd hla hself
      (h.tables.lt_of_free hpage) hperm
    · -- the page goes back
      have hok₂ := hok₁.grow hgrow fun _ ↦ PageOk.onPath_ne
      have hmapped₂ : ∀ x, s₂.mapped dirs x = s.mapped dirs x := fun x ↦ by
        rw [← hmapped₁]
        exact PageOk.mapped_congr fun e he m hm ↦ hgrow.pte hok₁.tables (hok₁.kind_dir he) hm
      have hpage₂ : kind₂ page = .data := by
        rw [hgrow.kept page (by rw [hself]; rintro ⟨⟩), hself]
      have hzero : s₂.mapped dirs page = 0 := by
        rw [hmapped₂, h.mapped_eq_zero (by rw [hpage]; rintro ⟨⟩)]
      have hnot : page ∉ s₂.free := by
        rw [← hok₂.tables.free, hpage₂]
        rintro ⟨⟩
      refine ⟨s₂.release page, Function.update kind₂ page .free,
        .of_le (hok₂.release hpage₂ (h.tables.lt_of_free hpage) hzero) ?_ ?_,
        .inl ⟨?_, fun e he m hm ↦ hgrow.pte hok₁.tables (hok₁.kind_dir he) hm⟩⟩
      · intro x hx
        have hne : x ≠ page := fun heq ↦ hx (heq ▸ hpage)
        rw [Function.update_of_ne hne, hgrow.kept x (by rwa [hkept₁ x hx]), hkept₁ x hx]
      · intro x
        exact (hmapped₂ x).ge
      · rw [pgdirAllocPage, bind_of_ok hrun]
        simp only
        rw [bind_of_ok (attempt_of_error hins)]
        simp only
        rw [bind_of_ok (freePage_run hnot)]
        rfl
    · refine ⟨s₂, kind₂, hinserted.toSettles.of_used hkept₁ hmapped₁,
        .inr ⟨page, hpage, ?_, ?_, hinserted.here, hinserted.elsewhere⟩⟩
      -- it is mapped now, so it was not freed
      · rcases hinserted.kinds page (by rw [hself]; rintro ⟨⟩) with hsame | ⟨-, hmaps⟩
        · rw [hsame, hself]
        · have hpos : 0 < (s.take page).mapped dirs page :=
            uses_pos (Mem.mem_places.mpr ⟨hd, page_lt hla⟩) hmaps
          rw [hmapped₁, h.mapped_eq_zero (by rw [hpage]; rintro ⟨⟩)] at hpos
          exact absurd hpos (lt_irrefl 0)
      · rw [pgdirAllocPage, bind_of_ok hrun]
        simp only
        rw [bind_of_ok (attempt_of_ok hins)]
        rfl

/-- `page_remove` drops the mapping of one place. -/
theorem pageRemove_run {la : ℕ} (h : PageOk s kind dirs) (hd : d ∈ dirs) (hla : la < userTop) :
    ∃ s' kind', (pageRemove A d la).run s = .ok () s' ∧
      Drop d (fun m ↦ m = la / pgSize) dirs s kind s' kind' := by
  have hlookup := getPte_lookup (A := A) h.tables (h.kind_dir hd) hla
  have hn := page_lt hla
  rw [pageRemove, bind_of_ok hlookup]
  cases ht : s.table d (la / pgSize / 512) with
  | none =>
    refine ⟨s, kind, rfl, .refl h ?_⟩
    rintro m - rfl
    rw [Mem.maps, Mem.pte_of_no_table ht]
    rfl
  | some f =>
    exact pageRemovePte_run h (h.tables.kind_table (h.kind_dir hd) (by omega) ht)

end Insert

/-! ## Runs -/

/-- The calls of a run. -/
inductive PageCall
  | allocPage
  | setupPgdir
  | pageInsert (pgdir page la : ℕ) (perm : BitVec 64)
  | pageRemove (pgdir la : ℕ)
  | pgdirAllocPage (pgdir la : ℕ) (perm : BitVec 64)
  | unmapRange (pgdir start stop : ℕ)

/-- Memory, the directories that were set up, and the pages that callers have got and that were not
freed since. -/
structure PageState where
  mem : Mem
  dirs : Finset ℕ
  pages : Finset ℕ

namespace PageState

variable (st : PageState)

/-- What a caller may ask for: directories and pages it has, and page-aligned user addresses. -/
def Allowed : PageCall → Prop
  | .allocPage | .setupPgdir => True
  | .pageInsert d page la perm =>
    d ∈ st.dirs ∧ page ∈ st.pages ∧ la % pgSize = 0 ∧ la < userTop ∧ IsType perm
  | .pageRemove d la => d ∈ st.dirs ∧ la % pgSize = 0 ∧ la < userTop
  | .pgdirAllocPage d la perm => d ∈ st.dirs ∧ la % pgSize = 0 ∧ la < userTop ∧ IsType perm
  | .unmapRange d start stop =>
    d ∈ st.dirs ∧ (start % pgSize = 0 ∧ stop % pgSize = 0) ∧ UserAccess start stop

instance : DecidablePred st.Allowed := fun call ↦
  match call with
  | .allocPage => isTrue trivial
  | .setupPgdir => isTrue trivial
  | .pageInsert _ _ _ _ => inferInstanceAs (Decidable (_ ∧ _ ∧ _ ∧ _ ∧ _))
  | .pageRemove _ _ => inferInstanceAs (Decidable (_ ∧ _ ∧ _))
  | .pgdirAllocPage _ _ _ => inferInstanceAs (Decidable (_ ∧ _ ∧ _ ∧ _))
  | .unmapRange _ _ _ => inferInstanceAs (Decidable (_ ∧ _ ∧ _))

/-- Memory after a call that handed out the page `new`, if any. -/
def after (mem : Mem) (new : Option ℕ) : PageState :=
  { st with mem := mem, pages := (st.pages ∪ new.toFinset) \ mem.free }

/-- What a call leaves, also when it fails; nothing when it stops the machine. -/
def exec (A : Pick) (boot : ℕ → BitVec 64) : PageCall → Option PageState
  | .allocPage =>
    match (allocPage A).run st.mem with
    | .ok page mem => some (st.after mem page)
    | .error _ mem => some (st.after mem none)
    | .panic => none
  | .setupPgdir =>
    match (setupPgdir A boot).run st.mem with
    | .ok dir mem => some { st.after mem none with dirs := insert dir st.dirs }
    | .error _ mem => some (st.after mem none)
    | .panic => none
  | .pageInsert d page la perm =>
    match (pageInsert A d page la perm).run st.mem with
    | .ok _ mem => some (st.after mem none)
    | .error _ mem => some (st.after mem none)
    | .panic => none
  | .pageRemove d la =>
    match (pageRemove A d la).run st.mem with
    | .ok _ mem => some (st.after mem none)
    | .error _ mem => some (st.after mem none)
    | .panic => none
  | .pgdirAllocPage d la perm =>
    match (pgdirAllocPage A d la perm).run st.mem with
    | .ok page mem => some (st.after mem page)
    | .error _ mem => some (st.after mem none)
    | .panic => none
  | .unmapRange d start stop =>
    match (unmapRange A d start stop).run st.mem with
    | .ok _ mem => some (st.after mem none)
    | .error _ mem => some (st.after mem none)
    | .panic => none

/-- The entries of all directories are the same, those for the pages `P` of `d` apart. -/
def Keeps (st' : PageState) (d : ℕ) (P : ℕ → Prop) : Prop :=
  ∀ e ∈ st.dirs, ∀ n < 524288, ¬(e = d ∧ P n) → st'.mem.pte e n = st.mem.pte e n

/-- What a call does to the mappings: `page_insert` and `pgdir_alloc_page` map one page, or fail and
map none; `page_remove` and `unmap_range` clear the mappings they are asked to clear; everything
else stays. -/
def Effect (A : Pick) (st' : PageState) : PageCall → Prop
  | .allocPage | .setupPgdir => st.Keeps st' 0 fun _ ↦ False
  | .pageInsert d page la perm =>
    (pageInsert A d page la perm).run st.mem = .error .noMem st'.mem ∧
        st.Keeps st' d (fun _ ↦ False) ∨
      (pageInsert A d page la perm).run st.mem = .ok () st'.mem ∧
        st'.mem.pte d (la / pgSize) = pteCreate page (pteV ||| perm) ∧
        st.Keeps st' d (· = la / pgSize)
  | .pageRemove d la => st'.mem.maps (d, la / pgSize) = none ∧ st.Keeps st' d (· = la / pgSize)
  | .pgdirAllocPage d la perm =>
    (pgdirAllocPage A d la perm).run st.mem = .ok none st'.mem ∧ st.Keeps st' d (fun _ ↦ False) ∨
      ∃ page ∈ st.mem.free, (pgdirAllocPage A d la perm).run st.mem = .ok (some page) st'.mem ∧
        st'.mem.pte d (la / pgSize) = pteCreate page (pteV ||| perm) ∧
        st.Keeps st' d (· = la / pgSize)
  | .unmapRange d start stop =>
    (∀ n, start / pgSize ≤ n → n < stop / pgSize → st'.mem.maps (d, n) = none) ∧
      st.Keeps st' d fun n ↦ start / pgSize ≤ n ∧ n < stop / pgSize

/-- What callers have, and what is mapped, was theirs, mapped or free before. -/
def Draws (st' : PageState) : Prop :=
  st'.pages ⊆ st.pages ∪ st.mem.free ∧
    ∀ x, 0 < st'.mem.mapped st'.dirs x →
      0 < st.mem.mapped st.dirs x ∨ x ∈ st.pages ∪ st.mem.free

/-- Some pages below `npage` are free and nothing is mapped. -/
def init (word : ℕ → ℕ → BitVec 64) (free : Finset ℕ) : PageState where
  mem := ⟨word, fun _ ↦ 0, free, []⟩
  dirs := ∅
  pages := ∅

end PageState

/-- The states that calls lead to. -/
inductive PageRun (A : Pick) (boot : ℕ → BitVec 64) (st₀ : PageState) : PageState → Prop
  | start : PageRun A boot st₀ st₀
  | step {st st' : PageState} {call : PageCall} (hrun : PageRun A boot st₀ st)
    (hallowed : st.Allowed call) (hexec : st.exec A boot call = some st') : PageRun A boot st₀ st'

/-- The calls of a script made one after the other. -/
def PageState.follow (A : Pick) (boot : ℕ → BitVec 64) :
    List PageCall → PageState → Option PageState
  | [], st => some st
  | call :: calls, st =>
    if st.Allowed call then (st.exec A boot call).bind (follow A boot calls) else none

theorem PageState.run_of_follow {A : Pick} {boot : ℕ → BitVec 64} {calls : List PageCall}
    {st₀ st st' : PageState} (hrun : PageRun A boot st₀ st)
    (h : PageState.follow A boot calls st = some st') : PageRun A boot st₀ st' := by
  induction calls generalizing st with
  | nil =>
    cases h
    exact hrun
  | cons call calls ih =>
    rw [follow] at h
    split_ifs at h with hallowed
    obtain ⟨st₁, hexec, hrest⟩ := Option.bind_eq_some_iff.mp h
    exact ih (hrun.step hallowed hexec) hrest

/-- The counts are exact, and what callers have got are pages of data. -/
structure PageState.Ok (st : PageState) (kind : ℕ → FrameKind) : Prop where
  page : PageOk st.mem kind st.dirs
  data : ∀ p ∈ st.pages, kind p = .data ∧ p < npage

section Runs

variable {A : PageSource} {boot : ℕ → BitVec 64} {st st' : PageState} {kind kind' : ℕ → FrameKind}

namespace PageState

theorem Ok.init {word : ℕ → ℕ → BitVec 64} {free : Finset ℕ} (hfree : ∀ f ∈ free, f < npage) :
    (PageState.init word free).Ok fun f ↦ if f ∈ free then .free else .data := by
  have hdata : ∀ {x l}, (if x ∈ free then FrameKind.free else .data) = l → l ≠ .free →
      l = .data := by
    intro x l hx hl
    split_ifs at hx
    · exact absurd hx.symm hl
    · exact hx.symm
  refine ⟨⟨⟨?_, ?_, ?_, ?_, ?_, ?_, ?_⟩, ?_, ?_, ?_, ?_, ?_, ?_⟩, ?_⟩
  · intro f
    change _ ↔ f ∈ free
    split_ifs with hf
    · exact ⟨fun _ ↦ hf, fun _ ↦ rfl⟩
    · exact ⟨by rintro ⟨⟩, fun hmem ↦ absurd hmem hf⟩
  · intro f hf
    split_ifs at hf with hmem
    · exact hfree f hmem
    · exact absurd rfl hf
  · intro d i f hd
    cases hdata hd (by rintro ⟨⟩)
  · intro d i f hf
    cases hdata hf (by rintro ⟨⟩)
  · intro d i j f f0 hf0
    cases hdata hf0 (by rintro ⟨⟩)
  · intro d r f hf
    cases hdata hf (by rintro ⟨⟩)
  · intro f d r k x hf
    cases hdata hf (by rintro ⟨⟩)
  · intro d
    refine iff_of_false (fun hd ↦ ?_) (Finset.notMem_empty d)
    cases hdata hd (by rintro ⟨⟩)
  · intro x _
    rfl
  · intro x d i hx
    cases hdata hx (by rintro ⟨⟩)
  · intro x d r hx
    cases hdata hx (by rintro ⟨⟩)
  · intro x _
    rfl
  · intro x hx
    cases hdata hx (by rintro ⟨⟩)
  · intro p hp
    exact absurd hp (Finset.notMem_empty p)

/-- Pages that are not free after a call are still pages of data. -/
theorem Ok.after (h : st.Ok kind) {dirs' : Finset ℕ} {mem' : Mem} {new : Option ℕ}
    (hsettles : Settles st.dirs dirs' st.mem kind mem' kind')
    (hnew : ∀ p, new = some p → kind' p = .data ∧ p < npage) :
    Ok { st.after mem' new with dirs := dirs' } kind' where
  page := hsettles.ok
  data p hp := by
    obtain ⟨hmem, hfree⟩ := Finset.mem_sdiff.mp hp
    rcases Finset.mem_union.mp hmem with hold | hp
    · obtain ⟨hdata, hlt⟩ := h.data p hold
      refine ⟨?_, hlt⟩
      rcases hsettles.stays p (by rw [hdata]; rintro ⟨⟩) with hsame | hfreed
      · rw [hsame, hdata]
      · exact absurd ((hsettles.ok.tables.free p).mp hfreed) hfree
    · exact hnew p (Option.mem_toFinset.mp hp)

theorem after_pages {mem : Mem} {new : Option ℕ} (hnew : ∀ p ∈ new, p ∈ st.mem.free) :
    (st.after mem new).pages ⊆ st.pages ∪ st.mem.free := by
  intro p hp
  rcases Finset.mem_union.mp (Finset.mem_sdiff.mp hp).1 with hold | hp
  · exact Finset.mem_union_left _ hold
  · exact Finset.mem_union_right _ (hnew p (Option.mem_toFinset.mp hp))

/-- Where one entry is new, a page that is mapped was mapped before, or the entry leads to it. -/
theorem mapped_of_pte {s s' : Mem} {dirs : Finset ℕ} {d n x : ℕ} {w : BitVec 64}
    (hhere : s'.pte d n = w)
    (helse : ∀ e ∈ dirs, ∀ m < 524288, ¬(e = d ∧ m = n) → s'.pte e m = s.pte e m)
    (hx : 0 < s'.mapped dirs x) : 0 < s.mapped dirs x ∨ target w = some x := by
  obtain ⟨q, hq, hmaps⟩ := uses_pos_iff.mp hx
  obtain ⟨he, hm⟩ := Mem.mem_places.mp hq
  by_cases hqn : q.1 = d ∧ q.2 = n
  · refine .inr ?_
    rw [← hhere, ← hqn.1, ← hqn.2]
    exact hmaps
  · refine .inl (uses_pos hq ?_)
    rw [Mem.maps, ← helse q.1 he q.2 hm hqn]
    exact hmaps

/-- Every call that is allowed is answered, keeps the counts exact and has its effect. -/
theorem exec_ok (h : st.Ok kind) (hboot : ∀ i < 2, target (boot i) = none) {call : PageCall}
    (hallowed : st.Allowed call) :
    ∃ st' kind', st.exec A boot call = some st' ∧ st'.Ok kind' ∧
      Settles st.dirs st'.dirs st.mem kind st'.mem kind' ∧ st.Effect A st' call ∧ st.Draws st' := by
  have hnone : ∀ {k : ℕ → FrameKind} p, none = some p → k p = .data ∧ p < npage :=
    fun p hp ↦ absurd hp.symm (Option.some_ne_none p)
  have hsame : ∀ mem : Mem, (st.after mem none).pages ⊆ st.pages ∪ st.mem.free := fun mem ↦
    after_pages fun p hp ↦ absurd hp.symm (Option.some_ne_none p)
  -- a call that changes no mapping but asked the allocator
  have hask : Settles st.dirs st.dirs st.mem kind st.mem.ask kind :=
    .of_le (h.page.grow (M := fun _ ↦ False) (.ask h.page.tables) fun _ hF ↦ hF.elim)
      (fun _ _ ↦ rfl) fun _ ↦ le_rfl
  cases call with
  | allocPage =>
    rcases allocPage_run A st.mem with hrun | ⟨page, hfree, hrun⟩
    · refine ⟨st.after st.mem.ask none, kind, ?_, h.after hask hnone, hask,
        fun _ _ _ _ _ ↦ rfl, hsame _, fun _ hx ↦ .inl hx⟩
      rw [exec, hrun]
    · have hpage := (h.page.tables.free page).mpr hfree
      obtain ⟨hok, hmapped⟩ := h.page.take hpage
      have hsettles : Settles st.dirs st.dirs st.mem kind (st.mem.take page)
          (Function.update kind page .data) :=
        .of_le hok (fun x hx ↦ Tables.kind_update_old hpage rfl hx) fun x ↦ (hmapped x).ge
      refine ⟨st.after (st.mem.take page) (some page), _, ?_, h.after hsettles ?_, hsettles,
        fun _ _ _ _ _ ↦ rfl, after_pages ?_, fun x hx ↦ .inl (hmapped x ▸ hx)⟩
      · rw [exec, hrun]
      · rintro p ⟨⟩
        exact ⟨Function.update_self _ _ _, h.page.tables.lt_of_free hpage⟩
      · rintro p ⟨⟩
        exact hfree
  | setupPgdir =>
    rcases allocPage_run A st.mem with hrun | ⟨page, hfree, hrun⟩
    · have hsetup : (Ucore.setupPgdir A boot).run st.mem = .error .noMem st.mem.ask := by
        rw [Ucore.setupPgdir, bind_of_ok hrun]
        rfl
      refine ⟨st.after st.mem.ask none, kind, ?_, h.after hask hnone, hask,
        fun _ _ _ _ _ ↦ rfl, hsame _, fun _ hx ↦ .inl hx⟩
      rw [exec, hsetup]
    · have hpage := (h.page.tables.free page).mpr hfree
      obtain ⟨hok, hmapped, -, hkeeps⟩ := h.page.takeDir hpage hboot
      have hsetup : (Ucore.setupPgdir A boot).run st.mem =
          .ok page ((st.mem.take page).setPage page boot) := by
        rw [Ucore.setupPgdir, bind_of_ok hrun]
        rfl
      have hsettles : Settles st.dirs (insert page st.dirs) st.mem kind
          ((st.mem.take page).setPage page boot) (Function.update kind page .dir) :=
        .of_le hok (fun x hx ↦ Tables.kind_update_old hpage rfl hx) fun x ↦ (hmapped x).ge
      refine ⟨{ st.after ((st.mem.take page).setPage page boot) none with
        dirs := insert page st.dirs }, _, ?_, h.after hsettles hnone, hsettles,
        fun e he n hn _ ↦ hkeeps e he n hn, hsame _, fun x hx ↦ .inl (hmapped x ▸ hx)⟩
      rw [exec, hsetup]
  | pageInsert d page la perm =>
    obtain ⟨hd, hmem, -, hla, hperm⟩ := hallowed
    obtain ⟨hdata, hlt⟩ := h.data page hmem
    obtain ⟨s', kind', ⟨hrun, hgrow⟩ | ⟨hrun, hins⟩⟩ :=
      pageInsert_run (A := A) h.page hd hla hdata hlt hperm
    · have hmapped : ∀ x, s'.mapped st.dirs x = st.mem.mapped st.dirs x := fun x ↦
        PageOk.mapped_congr fun e he m hm ↦ hgrow.pte h.page.tables (h.page.kind_dir he) hm
      have hsettles : Settles st.dirs st.dirs st.mem kind s' kind' :=
        .of_le (h.page.grow hgrow fun _ ↦ PageOk.onPath_ne) hgrow.kept fun x ↦ (hmapped x).ge
      refine ⟨st.after s' none, kind', ?_, h.after hsettles hnone, hsettles,
        .inl ⟨hrun, fun e he n hn _ ↦ hgrow.pte h.page.tables (h.page.kind_dir he) hn⟩, hsame _,
        fun x hx ↦ .inl (hmapped x ▸ hx)⟩
      rw [exec, hrun]
    · refine ⟨st.after s' none, kind', ?_, h.after hins.toSettles hnone, hins.toSettles,
        .inr ⟨hrun, hins.here, hins.elsewhere⟩, hsame _,
        fun x hx ↦ (mapped_of_pte hins.here hins.elsewhere hx).imp_right fun htarget ↦ ?_⟩
      · rw [exec, hrun]
      · rw [target_pteCreate hlt hperm.or_valid] at htarget
        cases htarget
        exact Finset.mem_union_left _ hmem
  | pageRemove d la =>
    obtain ⟨hd, -, hla⟩ := hallowed
    obtain ⟨s', kind', hrun, hdrop⟩ := pageRemove_run (A := A) h.page hd hla
    have hsettles := Settles.of_drop hdrop
    refine ⟨st.after s' none, kind', ?_, h.after hsettles hnone, hsettles,
      ⟨hdrop.inside _ (page_lt hla) rfl, hdrop.outside⟩, hsame _,
      fun x hx ↦ .inl (hx.trans_le (hdrop.le x))⟩
    rw [exec, hrun]
  | pgdirAllocPage d la perm =>
    obtain ⟨hd, -, hla, hperm⟩ := hallowed
    obtain ⟨s', kind', hsettles, ⟨hrun, hkeeps⟩ | ⟨page, hfree, hdata, hrun, hhere, helse⟩⟩ :=
      pgdirAllocPage_run (A := A) h.page hd hla hperm
    · refine ⟨st.after s' none, kind', ?_, h.after hsettles hnone, hsettles,
        .inl ⟨hrun, fun e he n hn _ ↦ hkeeps e he n hn⟩, hsame _,
        fun x hx ↦ .inl (PageOk.mapped_congr hkeeps ▸ hx)⟩
      rw [exec, hrun]
    · refine ⟨st.after s' (some page), kind', ?_, h.after hsettles ?_, hsettles,
        .inr ⟨page, (h.page.tables.free page).mp hfree, hrun, hhere, helse⟩, after_pages ?_,
        fun x hx ↦ (mapped_of_pte hhere helse hx).imp_right fun htarget ↦ ?_⟩
      · rw [exec, hrun]
      · rintro p ⟨⟩
        exact ⟨hdata, h.page.tables.lt_of_free hfree⟩
      · rintro p ⟨⟩
        exact (h.page.tables.free page).mp hfree
      · rw [target_pteCreate (h.page.tables.lt_of_free hfree) hperm.or_valid] at htarget
        cases htarget
        exact Finset.mem_union_right _ ((h.page.tables.free page).mp hfree)
  | unmapRange d start stop =>
    obtain ⟨hd, halign, huser⟩ := hallowed
    obtain ⟨s', kind', hrun, hdrop⟩ := unmapRange_run (A := A) h.page hd halign huser
    have hsettles := Settles.of_drop hdrop
    refine ⟨st.after s' none, kind', ?_, h.after hsettles hnone, hsettles,
      ⟨fun n hlo hhi ↦ hdrop.inside n ?_ ⟨hlo, hhi⟩, hdrop.outside⟩, hsame _,
      fun x hx ↦ .inl (hx.trans_le (hdrop.le x))⟩
    · rw [exec, hrun]
    · have hle := huser.2.2
      rw [userTop] at hle
      rw [pgSize] at hhi
      omega

end PageState

variable {word : ℕ → ℕ → BitVec 64} {free : Finset ℕ}

/-- Every state of a run is well formed. -/
theorem PageRun.ok (hrun : PageRun A boot (PageState.init word free) st)
    (hfree : ∀ f ∈ free, f < npage) (hboot : ∀ i < 2, target (boot i) = none) :
    ∃ kind, st.Ok kind := by
  induction hrun with
  | start => exact ⟨_, PageState.Ok.init hfree⟩
  | step hrun hallowed hexec ih =>
    obtain ⟨kind, hok⟩ := ih
    obtain ⟨st', kind', hexec', hok', -⟩ := PageState.exec_ok (A := A) hok hboot hallowed
    rw [hexec] at hexec'
    cases hexec'
    exact ⟨kind', hok'⟩

/-- A source that hands out the free page with the lowest number. -/
def lowestPage : PageSource where
  pick _ s := if h : s.Nonempty then some (s.min' h) else none
  pick_mem {_ s _} h := by
    split_ifs at h with hs
    rw [← Option.some.inj h]
    exact s.min'_mem hs

end Runs

end Ucore
