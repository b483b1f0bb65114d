import Ucore.Lib.RefCount
import Ucore.Mm.PageTableSpec

/-!
# Reference counts of pages

The reference count of a page of data is the number of places that map it, over all directories.
Dropping a mapping frees the page exactly when it was the last one, and entering a page counts it
once more, whatever was mapped there before.

## The invariant

`PageOk` adds to the forest of page tables that the counts are exact: a page of data has as many
references as places that map it, a table has one, a directory and a free page have none. The number
of places is a count over the directories and their pages (`Mem.mapped`), so that a change of one
entry takes one from the page that goes and adds one to the page that comes. These may be the same
page: `page_insert` counts the new mapping before it drops the old one, and the page is not freed in
between.
-/

namespace Ucore

open Prog RefCount

namespace Mem

variable (s : Mem)

/-- The page that the directory and the page number of a pair map to. -/
def maps (q : ℕ × ℕ) : Option ℕ := target (s.pte q.1 q.2)

/-- The places in the user half of the directories. -/
def places (dirs : Finset ℕ) : Finset (ℕ × ℕ) := dirs ×ˢ Finset.range 524288

/-- The number of places that map a page. -/
def mapped (dirs : Finset ℕ) (x : ℕ) : ℕ := uses (places dirs) s.maps x

/-- The mapping to `p` in the word `k` of the frame `f` is dropped. -/
def dropPte (p f k : ℕ) : Mem :=
  let t := s.setRef p (s.ref p - 1)
  (if t.ref p = 0 then t.release p else t).setWord f k 0

/-- The number of entries of the directories, and of the level 0 directories behind them, that point
to a table. -/
def tabled (dirs : Finset ℕ) (x : ℕ) : ℕ :=
  uses (dirs ×ˢ Finset.range 2) (fun q ↦ s.table0 q.1 q.2) x +
    uses (dirs ×ˢ Finset.range 1024) (fun q ↦ s.table q.1 q.2) x

/-- The page `p` is mapped by the word `k` of the frame `f`. -/
def mapPte (p f k : ℕ) (w : BitVec 64) : Mem := (s.setRef p (s.ref p + 1)).setWord f k w

variable {s}

theorem mem_places {dirs : Finset ℕ} {q : ℕ × ℕ} : q ∈ places dirs ↔ q.1 ∈ dirs ∧ q.2 < 524288 := by
  rw [places, Finset.mem_product, Finset.mem_range]

@[simp] theorem dropPte_word (p f k : ℕ) : (s.dropPte p f k).word = (s.setWord f k 0).word := by
  simp only [dropPte]
  split_ifs <;> rfl

theorem dropPte_ref_of_ne {p f k x : ℕ} (h : x ≠ p) : (s.dropPte p f k).ref x = s.ref x := by
  simp only [dropPte]
  split_ifs <;> simp [h]

theorem dropPte_ref_self (p f k : ℕ) : (s.dropPte p f k).ref p = s.ref p - 1 := by
  simp only [dropPte]
  split_ifs with hzero
  · rw [setWord_ref, release_ref, Function.update_self]
    exact hzero.symm.trans (Function.update_self _ _ _)
  · simp

theorem dropPte_free (p f k : ℕ) :
    (s.dropPte p f k).free = if s.ref p = 1 then insert p s.free else s.free := by
  have hiff : (s.setRef p (s.ref p - 1)).ref p = 0 ↔ s.ref p = 1 := by
    rw [setRef_ref, Function.update_self, sub_eq_zero]
  simp only [dropPte, hiff]
  split_ifs <;> rfl

/-- Another page may be counted before or after. -/
theorem dropPte_setRef {p f k page : ℕ} (h : page ≠ p) (n : ℤ) :
    (s.setRef page n).dropPte p f k = (s.dropPte p f k).setRef page n := by
  have hpage : Function.update s.ref page n p = s.ref p := Function.update_of_ne h.symm _ _
  simp only [dropPte, setRef, setWord, release, hpage, Function.update_self]
  split_ifs
  · simp only [mk.injEq, true_and, and_true]
    rw [Function.update_comm h, Function.update_comm h]
  · simp only [mk.injEq, true_and, and_true]
    rw [Function.update_comm h]

end Mem

/-! ## The routines on one entry -/

section Entries

variable {s : Mem} {f k p : ℕ}

theorem pte2page_run {w : BitVec 64} (ht : target w = some p) (hlt : p < npage) :
    (pte2page w).run s = .ok p s := by
  rw [pte2page, assert_bind_run (isValid_of_target ht).1, frameOf_run ht hlt]

theorem freePage_run (h : p ∉ s.free) : (freePage p).run s = .ok () (s.release p) := by
  rw [freePage, get_bind_run, assert_bind_run h]
  rfl

theorem pageRemovePte_none (ht : target (s.word f k) = none) :
    (pageRemovePte (f, k)).run s = .ok () s := by
  rw [pageRemovePte, get_bind_run, if_neg (isValid_eq_false_of_target ht)]
  rfl

theorem pageRemovePte_some (ht : target (s.word f k) = some p) (hlt : p < npage)
    (hfree : p ∉ s.free) : (pageRemovePte (f, k)).run s = .ok () (s.dropPte p f k) := by
  rw [pageRemovePte, get_bind_run, if_pos (isValid_of_target ht).1,
    bind_of_ok (pte2page_run ht hlt), modify_bind_run, get_bind_run]
  have hfree : p ∉ (s.setRef p (s.ref p - 1)).free := hfree
  simp only [Mem.dropPte]
  split_ifs with hzero
  · rw [bind_of_ok (freePage_run hfree)]
    rfl
  · rfl

end Entries

/-! ## Exact reference counts -/

/-- The tables are well formed and the reference counts are exact. -/
structure PageOk (s : Mem) (kind : ℕ → FrameKind) (dirs : Finset ℕ) : Prop where
  tables : Tables s kind
  dir_iff : ∀ d, kind d = .dir ↔ d ∈ dirs
  ref_data : ∀ {x}, kind x = .data → s.ref x = s.mapped dirs x
  ref_pd0 : ∀ {x d i}, kind x = .pd0 d i → s.ref x = 1
  ref_pt : ∀ {x d r}, kind x = .pt d r → s.ref x = 1
  ref_free : ∀ {x}, kind x = .free → s.ref x = 0
  ref_dir : ∀ {x}, kind x = .dir → s.ref x = 0

namespace PageOk

variable {s s' : Mem} {kind kind' : ℕ → FrameKind} {dirs : Finset ℕ} {d n f k p x : ℕ}
    {w : BitVec 64}

theorem kind_dir (h : PageOk s kind dirs) (hd : d ∈ dirs) : kind d = .dir := (h.dir_iff d).mpr hd

theorem maps_data (h : PageOk s kind dirs) (hd : d ∈ dirs) (hn : n < 524288)
    (hx : s.maps (d, n) = some x) : kind x = .data ∧ x < npage :=
  h.tables.kind_of_pte (h.kind_dir hd) hn hx

/-- Only pages of data are mapped. -/
theorem kind_of_mapped (h : PageOk s kind dirs) (hx : 0 < s.mapped dirs x) :
    kind x = .data ∧ x < npage := by
  obtain ⟨⟨d, n⟩, hmem, hmaps⟩ := uses_pos_iff.mp hx
  obtain ⟨hd, hn⟩ := Mem.mem_places.mp hmem
  exact h.maps_data hd hn hmaps

theorem mapped_eq_zero (h : PageOk s kind dirs) (hx : kind x ≠ .data) : s.mapped dirs x = 0 := by
  by_contra hne
  exact hx (h.kind_of_mapped (Nat.pos_of_ne_zero hne)).1

/-- A page that is mapped is not free. -/
theorem notMem_free (h : PageOk s kind dirs) (hx : 0 < s.mapped dirs x) : x ∉ s.free := by
  rw [← h.tables.free, (h.kind_of_mapped hx).1]
  rintro ⟨⟩

/-- Where the entries for the places are the same, so are the counts. -/
theorem mapped_congr (h : ∀ d ∈ dirs, ∀ n < 524288, s'.pte d n = s.pte d n) :
    s'.mapped dirs x = s.mapped dirs x := by
  refine uses_congr fun q hq ↦ ?_
  obtain ⟨hd, hn⟩ := Mem.mem_places.mp hq
  rw [Mem.maps, Mem.maps, h q.1 hd q.2 hn]

/-- Only level 0 directories are behind the entries of a directory. -/
theorem uses_table0 (h : PageOk s kind dirs) :
    (∀ e i, kind x = .pd0 e i → uses (dirs ×ˢ Finset.range 2) (fun q ↦ s.table0 q.1 q.2) x = 1) ∧
      ((∀ e i, kind x ≠ .pd0 e i) →
        uses (dirs ×ˢ Finset.range 2) (fun q ↦ s.table0 q.1 q.2) x = 0) := by
  have hkind : ∀ q ∈ dirs ×ˢ Finset.range 2, s.table0 q.1 q.2 = some x → kind x = .pd0 q.1 q.2 := by
    intro q hq hx
    obtain ⟨hd, hi⟩ := Finset.mem_product.mp hq
    exact h.tables.kind_table0 (h.kind_dir hd) (Finset.mem_range.mp hi) hx
  constructor
  · intro e i hx
    obtain ⟨he, hi, hentry⟩ := h.tables.pd0_up hx
    have hmem : (e, i) ∈ dirs ×ˢ Finset.range 2 :=
      Finset.mem_product.mpr ⟨(h.dir_iff e).mp he, Finset.mem_range.mpr hi⟩
    refine uses_eq_one hmem hentry fun q hq hqx ↦ ?_
    have hsame := hkind q hq hqx
    rw [hx] at hsame
    obtain ⟨h₁, h₂⟩ := FrameKind.pd0.inj hsame
    exact Prod.ext h₁.symm h₂.symm
  · intro hx
    exact uses_eq_zero_iff.mpr fun q hq hqx ↦ hx _ _ (hkind q hq hqx)

/-- Only page tables are behind the entries of the level 0 directories. -/
theorem uses_table (h : PageOk s kind dirs) :
    (∀ e r, kind x = .pt e r → uses (dirs ×ˢ Finset.range 1024) (fun q ↦ s.table q.1 q.2) x = 1) ∧
      ((∀ e r, kind x ≠ .pt e r) →
        uses (dirs ×ˢ Finset.range 1024) (fun q ↦ s.table q.1 q.2) x = 0) := by
  have hkind : ∀ q ∈ dirs ×ˢ Finset.range 1024, s.table q.1 q.2 = some x →
      kind x = .pt q.1 q.2 := by
    intro q hq hx
    obtain ⟨hd, hr⟩ := Finset.mem_product.mp hq
    exact h.tables.kind_table (h.kind_dir hd) (Finset.mem_range.mp hr) hx
  constructor
  · intro e r hx
    obtain ⟨he, hr⟩ := h.tables.pt_dir hx
    have hmem : (e, r) ∈ dirs ×ˢ Finset.range 1024 :=
      Finset.mem_product.mpr ⟨(h.dir_iff e).mp he, Finset.mem_range.mpr hr⟩
    refine uses_eq_one hmem ((h.tables.table_iff he hr).mpr hx) fun q hq hqx ↦ ?_
    have hsame := hkind q hq hqx
    rw [hx] at hsame
    obtain ⟨h₁, h₂⟩ := FrameKind.pt.inj hsame
    exact Prod.ext h₁.symm h₂.symm
  · intro hx
    exact uses_eq_zero_iff.mpr fun q hq hqx ↦ hx _ _ (hkind q hq hqx)

/-- The reference count of a frame is the number of entries that point to it. -/
theorem ref_eq (h : PageOk s kind dirs) (x : ℕ) : s.ref x = s.mapped dirs x + s.tabled dirs x := by
  have h0 := h.uses_table0 (x := x)
  have ht := h.uses_table (x := x)
  rw [Mem.tabled]
  cases hx : kind x with
  | free =>
    rw [h.ref_free hx, h.mapped_eq_zero (by rw [hx]; rintro ⟨⟩), h0.2 (by rw [hx]; rintro _ _ ⟨⟩),
      ht.2 (by rw [hx]; rintro _ _ ⟨⟩)]
    rfl
  | dir =>
    rw [h.ref_dir hx, h.mapped_eq_zero (by rw [hx]; rintro ⟨⟩), h0.2 (by rw [hx]; rintro _ _ ⟨⟩),
      ht.2 (by rw [hx]; rintro _ _ ⟨⟩)]
    rfl
  | pd0 e i =>
    rw [h.ref_pd0 hx, h.mapped_eq_zero (by rw [hx]; rintro ⟨⟩), h0.1 e i hx,
      ht.2 (by rw [hx]; rintro _ _ ⟨⟩)]
    rfl
  | pt e r =>
    rw [h.ref_pt hx, h.mapped_eq_zero (by rw [hx]; rintro ⟨⟩), h0.2 (by rw [hx]; rintro _ _ ⟨⟩),
      ht.1 e r hx]
    rfl
  | data =>
    rw [h.ref_data hx, h0.2 (by rw [hx]; rintro _ _ ⟨⟩), ht.2 (by rw [hx]; rintro _ _ ⟨⟩)]
    simp

/-- New tables change no count. -/
theorem grow {M : FrameKind → Prop} (h : PageOk s kind dirs) (hgrow : Grow M s kind s' kind')
    (hM : ∀ l, M l → l ≠ .dir ∧ l ≠ .data) : PageOk s' kind' dirs := by
  have hold : ∀ {y l}, kind' y = l → l = .dir ∨ l = .data → kind y = l := by
    intro y l hy hl
    by_cases hfree : kind y = .free
    · rcases hgrow.made y hfree with hfree' | hmade
      · rw [hfree'] at hy
        rcases hl with rfl | rfl <;> cases hy
      · rw [hy] at hmade
        rcases hl with rfl | rfl
        · exact absurd rfl (hM _ hmade).1
        · exact absurd rfl (hM _ hmade).2
    · rw [← hgrow.kept y hfree, hy]
  have hnew : ∀ {y l}, kind' y = l → l ≠ .free → (kind y = l → s.ref y = 1) → s'.ref y = 1 := by
    intro y l hy hl hone
    by_cases hfree : kind y = .free
    · exact hgrow.refNew y hfree (by rwa [hy])
    · rw [hgrow.ref y hfree]
      exact hone (by rw [← hgrow.kept y hfree, hy])
  refine ⟨hgrow.tables, ?_, ?_, ?_, ?_, ?_, ?_⟩
  · intro e
    rw [← h.dir_iff]
    refine ⟨fun he ↦ hold he (.inl rfl), fun he ↦ ?_⟩
    rw [hgrow.kept e (by rw [he]; rintro ⟨⟩), he]
  · intro y hy
    have hdata := hold hy (.inr rfl)
    have hmapped : s'.mapped dirs y = s.mapped dirs y := mapped_congr fun e he m hm ↦
      hgrow.pte h.tables (h.kind_dir he) hm
    rw [hgrow.ref y (by rw [hdata]; rintro ⟨⟩), h.ref_data hdata, hmapped]
  · intro y e i hy
    exact hnew hy (by rintro ⟨⟩) h.ref_pd0
  · intro y e r hy
    exact hnew hy (by rintro ⟨⟩) h.ref_pt
  · intro y hy
    rw [hgrow.refFree y hy]
    refine h.ref_free ?_
    by_contra hne
    rw [hgrow.kept y hne] at hy
    exact hne hy
  · intro y hy
    have hdir := hold hy (.inl rfl)
    rw [hgrow.ref y (by rw [hdir]; rintro ⟨⟩), h.ref_dir hdir]

/-- What is in the pages of data does not matter. -/
theorem of_word_data (h : PageOk s kind dirs) (hword : ∀ f, kind f ≠ .data → s'.word f = s.word f)
    (href : s'.ref = s.ref) (hfree : s'.free = s.free) :
    PageOk s' kind dirs ∧ ∀ e ∈ dirs, ∀ m < 524288, s'.pte e m = s.pte e m := by
  have htables := h.tables.of_word_data hword hfree
  have hpte : ∀ e ∈ dirs, ∀ m < 524288, s'.pte e m = s.pte e m := fun e he m hm ↦
    h.tables.pte_congr htables (h.kind_dir he) (h.kind_dir he) hm (fun _ ↦ Iff.rfl) fun g hg ↦
      hword g (by rw [hg]; rintro ⟨⟩)
  refine ⟨⟨htables, h.dir_iff, ?_, ?_, ?_, ?_, ?_⟩, hpte⟩
  · intro y hy
    rw [href, mapped_congr hpte]
    exact h.ref_data hy
  all_goals rw [href]
  · exact h.ref_pd0
  · exact h.ref_pt
  · exact h.ref_free
  · exact h.ref_dir

theorem onPath_ne {l : FrameKind} (h : OnPath d n l) : l ≠ .dir ∧ l ≠ .data := by
  rcases h with rfl | rfl
  · exact ⟨by rintro ⟨⟩, by rintro ⟨⟩⟩
  · exact ⟨by rintro ⟨⟩, by rintro ⟨⟩⟩

/-- The slot of a page table is the place of its page number. -/
theorem pte_setWord (h : PageOk s kind dirs) (hf : kind f = .pt d (n / 512))
    (hw : ∀ y, target w = some y → kind y = .data ∧ y < npage) {d' n' : ℕ} (hd' : d' ∈ dirs)
    (hn' : n' < 524288) :
    (s.setWord f (n % 512) w).pte d' n' = if d' = d ∧ n' = n then w else s.pte d' n' := by
  rw [h.tables.pte_setWord hf (Nat.mod_lt n (by decide)) hw (h.kind_dir hd') hn', Nat.div_add_mod]

/-- The entry for a place is the word of its page table. -/
theorem word_eq_pte (h : PageOk s kind dirs) (hf : kind f = .pt d (n / 512)) :
    s.word f (n % 512) = s.pte d n := by
  obtain ⟨hd, hr⟩ := h.tables.pt_dir hf
  rw [Mem.pte_of_table ((h.tables.table_iff hd hr).mpr hf)]

theorem dir_of_pt (h : PageOk s kind dirs) (hf : kind f = .pt d (n / 512)) :
    d ∈ dirs ∧ n < 524288 := by
  obtain ⟨hd, hr⟩ := h.tables.pt_dir hf
  exact ⟨(h.dir_iff d).mp hd, by omega⟩

/-- The counts after one place was written. -/
theorem mapped_setWord (h : PageOk s kind dirs) (hf : kind f = .pt d (n / 512))
    (hw : ∀ y, target w = some y → kind y = .data ∧ y < npage) :
    ((s.setWord f (n % 512) w).mapped dirs x : ℤ) = s.mapped dirs x -
      (if s.maps (d, n) = some x then 1 else 0) + (if target w = some x then 1 else 0) := by
  obtain ⟨hd, hn⟩ := h.dir_of_pt hf
  have hcongr : (s.setWord f (n % 512) w).mapped dirs x =
      uses (Mem.places dirs) (Function.update s.maps (d, n) (target w)) x := by
    refine uses_congr fun q hq ↦ ?_
    obtain ⟨hq1, hq2⟩ := Mem.mem_places.mp hq
    rw [Mem.maps, h.pte_setWord hf hw hq1 hq2]
    split_ifs with heq
    · rw [show q = (d, n) from Prod.ext heq.1 heq.2, Function.update_self]
    · rw [Function.update_of_ne fun hqd ↦ heq (by rw [hqd]; exact ⟨rfl, rfl⟩)]
      rfl
  rw [hcongr, uses_update (Mem.mem_places.mpr ⟨hd, hn⟩)]
  rfl

/-- No entry of a page table leads to a page without mappings. -/
theorem target_ne_of_mapped (h : PageOk s kind dirs) (hp : s.mapped dirs p = 0) {d' r k' : ℕ}
    (hf : kind f = .pt d' r) (hk : k' < 512) : target (s.word f k') ≠ some p := by
  intro ht
  obtain ⟨hd, hr⟩ := h.tables.pt_dir hf
  have hdiv : (512 * r + k') / 512 = r := by omega
  have hmod : (512 * r + k') % 512 = k' := by omega
  have hplace : (d', 512 * r + k') ∈ Mem.places dirs :=
    Mem.mem_places.mpr ⟨(h.dir_iff d').mp hd, by simp only; omega⟩
  refine uses_eq_zero_iff.mp hp _ hplace ?_
  rw [Mem.maps, ← h.word_eq_pte (by rwa [hdiv]), hmod]
  exact ht

/-- What happens to the kind of `p` when one of its mappings is dropped. -/
def dropKind (s : Mem) (kind : ℕ → FrameKind) (p : ℕ) : ℕ → FrameKind :=
  if s.ref p = 1 then Function.update kind p .free else kind

/-- The counts after the mapping at a place is dropped. -/
theorem mapped_dropPte (h : PageOk s kind dirs) (hf : kind f = .pt d (n / 512))
    (hp : s.maps (d, n) = some p) (y : ℕ) :
    ((s.dropPte p f (n % 512)).mapped dirs y : ℤ) = s.mapped dirs y - if y = p then 1 else 0 := by
  have hzero : ∀ y, target (0 : BitVec 64) = some y → kind y = .data ∧ y < npage :=
    fun y hy ↦ absurd hy.symm (Option.some_ne_none y)
  have hset : (s.dropPte p f (n % 512)).mapped dirs y = (s.setWord f (n % 512) 0).mapped dirs y :=
    mapped_congr fun e _ m _ ↦ Mem.pte_eq_of_word_eq (Mem.dropPte_word p f _) e m
  rw [hset, h.mapped_setWord hf hzero, hp, target_zero, if_neg (Option.some_ne_none y).symm,
    add_zero]
  simp only [Option.some.injEq, eq_comm]

/-- Dropping a mapping keeps the counts exact, and the page is freed with its last one. -/
theorem drop (h : PageOk s kind dirs) (hf : kind f = .pt d (n / 512))
    (hp : s.maps (d, n) = some p) :
    PageOk (s.dropPte p f (n % 512)) (dropKind s kind p) dirs := by
  obtain ⟨hd, hn⟩ := h.dir_of_pt hf
  obtain ⟨hdata, hlt⟩ := h.maps_data hd hn hp
  have hzero : ∀ y, target (0 : BitVec 64) = some y → kind y = .data ∧ y < npage :=
    fun y hy ↦ absurd hy.symm (Option.some_ne_none y)
  have hcount := h.mapped_dropPte hf hp
  have htables₁ : Tables (s.setWord f (n % 512) 0) kind := h.tables.setWord_pt hf hzero
  have hpos : 0 < s.mapped dirs p := uses_pos (Mem.mem_places.mpr ⟨hd, hn⟩) hp
  have hrest : ∀ {y}, y ≠ p → (s.dropPte p f (n % 512)).mapped dirs y = s.mapped dirs y := by
    intro y hy
    have hy' := hcount y
    rw [if_neg hy, sub_zero] at hy'
    exact_mod_cast hy'
  -- with its last mapping the frame becomes free
  by_cases hone : s.ref p = 1
  · rw [dropKind, if_pos hone]
    have hlast : (s.setWord f (n % 512) 0).mapped dirs p = 0 := by
      have hcount' := h.mapped_setWord (x := p) hf hzero
      rw [hp, if_pos rfl, target_zero, if_neg (Option.some_ne_none p).symm, ← h.ref_data hdata,
        hone] at hcount'
      simpa using hcount'
    have hunmapped : ∀ {g e r k'}, kind g = .pt e r → k' < 512 →
        target ((s.setWord f (n % 512) 0).word g k') ≠ some p := by
      intro g e r k' hg hk' ht
      obtain ⟨he, hr⟩ := htables₁.pt_dir hg
      have hplace : (e, 512 * r + k') ∈ Mem.places dirs :=
        Mem.mem_places.mpr ⟨(h.dir_iff e).mp he, by simp only; omega⟩
      have hdiv : (512 * r + k') / 512 = r := by omega
      have hmod : (512 * r + k') % 512 = k' := by omega
      refine uses_eq_zero_iff.mp hlast _ hplace ?_
      rw [Mem.maps, Mem.pte_of_table ((htables₁.table_iff he (by simp only; omega)).mpr
        (by simp only [hdiv]; exact hg))]
      simp only [hmod]
      exact ht
    have htables : Tables (s.dropPte p f (n % 512)) (Function.update kind p .free) :=
      (htables₁.release hdata hlt hunmapped).of_word_eq (Mem.dropPte_word p f _)
        (by rw [Mem.dropPte_free, if_pos hone]; rfl)
    refine ⟨htables, ?_, ?_, ?_, ?_, ?_, ?_⟩
    · intro e
      rw [← h.dir_iff]
      rcases eq_or_ne e p with rfl | hne
      · rw [Function.update_self, hdata]
        exact iff_of_false (by rintro ⟨⟩) (by rintro ⟨⟩)
      · rw [Function.update_of_ne hne]
    · intro y hy
      obtain ⟨-, hk⟩ | ⟨hne, hold⟩ := Tables.kind_update_cases hy
      · cases hk
      · rw [Mem.dropPte_ref_of_ne hne, h.ref_data hold, hrest hne]
    · intro y e i hy
      obtain ⟨-, hk⟩ | ⟨hne, hold⟩ := Tables.kind_update_cases hy
      · cases hk
      · rw [Mem.dropPte_ref_of_ne hne, h.ref_pd0 hold]
    · intro y e r hy
      obtain ⟨-, hk⟩ | ⟨hne, hold⟩ := Tables.kind_update_cases hy
      · cases hk
      · rw [Mem.dropPte_ref_of_ne hne, h.ref_pt hold]
    · intro y hy
      obtain ⟨rfl, -⟩ | ⟨hne, hold⟩ := Tables.kind_update_cases hy
      · rw [Mem.dropPte_ref_self, hone, sub_self]
      · rw [Mem.dropPte_ref_of_ne hne, h.ref_free hold]
    · intro y hy
      obtain ⟨-, hk⟩ | ⟨hne, hold⟩ := Tables.kind_update_cases hy
      · cases hk
      · rw [Mem.dropPte_ref_of_ne hne, h.ref_dir hold]
  · rw [dropKind, if_neg hone]
    have htables : Tables (s.dropPte p f (n % 512)) kind :=
      htables₁.of_word_eq (Mem.dropPte_word p f _) (by rw [Mem.dropPte_free, if_neg hone]; rfl)
    have hne_data : ∀ {y l}, kind y = l → l ≠ .data → y ≠ p := fun hy hl ↦
      Tables.ne_of_kind hy hdata hl
    refine ⟨htables, h.dir_iff, ?_, ?_, ?_, ?_, ?_⟩
    · intro y hy
      rcases eq_or_ne y p with rfl | hne
      · rw [Mem.dropPte_ref_self, hcount, if_pos rfl, h.ref_data hdata]
      · rw [Mem.dropPte_ref_of_ne hne, h.ref_data hy, hrest hne]
    · intro y e i hy
      rw [Mem.dropPte_ref_of_ne (hne_data hy (by rintro ⟨⟩)), h.ref_pd0 hy]
    · intro y e r hy
      rw [Mem.dropPte_ref_of_ne (hne_data hy (by rintro ⟨⟩)), h.ref_pt hy]
    · intro y hy
      rw [Mem.dropPte_ref_of_ne (hne_data hy (by rintro ⟨⟩)), h.ref_free hy]
    · intro y hy
      rw [Mem.dropPte_ref_of_ne (hne_data hy (by rintro ⟨⟩)), h.ref_dir hy]

/-- A page of data is mapped where nothing was mapped. -/
theorem map (h : PageOk s kind dirs) (hf : kind f = .pt d (n / 512)) (hnone : s.maps (d, n) = none)
    (hp : kind p = .data) (hlt : p < npage) (hw : target w = some p) :
    PageOk (s.mapPte p f (n % 512) w) kind dirs := by
  have hdata : ∀ y, target w = some y → kind y = .data ∧ y < npage := by
    intro y hy
    rw [hw] at hy
    cases hy
    exact ⟨hp, hlt⟩
  have hne_data : ∀ {y l}, kind y = l → l ≠ .data → y ≠ p := fun hy hl ↦
    Tables.ne_of_kind hy hp hl
  have hcount : ∀ y, ((s.mapPte p f (n % 512) w).mapped dirs y : ℤ) =
      s.mapped dirs y + if y = p then 1 else 0 := by
    intro y
    have hset : (s.mapPte p f (n % 512) w).mapped dirs y =
        (s.setWord f (n % 512) w).mapped dirs y :=
      rfl
    rw [hset, h.mapped_setWord hf hdata, hnone, hw, if_neg (Option.some_ne_none y).symm, sub_zero]
    simp only [Option.some.injEq, eq_comm]
  have href : ∀ {y}, y ≠ p → (s.mapPte p f (n % 512) w).ref y = s.ref y := fun hy ↦
    Function.update_of_ne hy _ _
  refine ⟨(h.tables.setWord_pt hf hdata).of_word_eq rfl rfl, h.dir_iff, ?_, ?_, ?_, ?_, ?_⟩
  · intro y hy
    rw [hcount]
    rcases eq_or_ne y p with rfl | hne
    · rw [if_pos rfl, ← h.ref_data hp]
      exact Function.update_self _ _ _
    · rw [href hne, if_neg hne, add_zero, h.ref_data hy]
  · intro y e i hy
    rw [href (hne_data hy (by rintro ⟨⟩)), h.ref_pd0 hy]
  · intro y e r hy
    rw [href (hne_data hy (by rintro ⟨⟩)), h.ref_pt hy]
  · intro y hy
    rw [href (hne_data hy (by rintro ⟨⟩)), h.ref_free hy]
  · intro y hy
    rw [href (hne_data hy (by rintro ⟨⟩)), h.ref_dir hy]

/-- The page that is mapped already is mapped again. -/
theorem remap (h : PageOk s kind dirs) (hf : kind f = .pt d (n / 512))
    (hsome : s.maps (d, n) = some p) (hw : target w = some p) :
    PageOk (s.setWord f (n % 512) w) kind dirs := by
  obtain ⟨hd, hn⟩ := h.dir_of_pt hf
  have hdata : ∀ y, target w = some y → kind y = .data ∧ y < npage := by
    intro y hy
    rw [hw, ← hsome] at hy
    exact h.maps_data hd hn hy
  refine ⟨h.tables.setWord_pt hf hdata, h.dir_iff, ?_, h.ref_pd0, h.ref_pt, h.ref_free, h.ref_dir⟩
  intro y hy
  rw [h.mapped_setWord hf hdata, hsome, hw, sub_add_cancel]
  exact h.ref_data hy

theorem not_table_update {page : ℕ} {k l : FrameKind} (hpage : kind page = .free) {y : ℕ}
    (hk : k ≠ l) (hl : l ≠ .free) : Function.update kind page k y = l ↔ kind y = l := by
  refine ⟨fun hy ↦ ?_, fun hy ↦ Tables.kind_update_old hpage hy hl⟩
  obtain ⟨-, hkl⟩ | ⟨-, hold⟩ := Tables.kind_update_cases hy
  · exact absurd hkl.symm hk
  · exact hold

/-- A free page is put to use as a page of data. -/
theorem take {page : ℕ} (h : PageOk s kind dirs) (hpage : kind page = .free) :
    PageOk (s.take page) (Function.update kind page .data) dirs ∧
      ∀ x, (s.take page).mapped dirs x = s.mapped dirs x := by
  have htables : Tables (s.take page) (Function.update kind page .data) :=
    h.tables.use hpage rfl (fun _ _ ↦ rfl) (.inl rfl)
  have hmapped : ∀ x, (s.take page).mapped dirs x = s.mapped dirs x := fun x ↦ rfl
  refine ⟨⟨htables, ?_, ?_, ?_, ?_, ?_, ?_⟩, hmapped⟩
  · intro d
    rw [not_table_update hpage (by rintro ⟨⟩) (by rintro ⟨⟩), h.dir_iff]
  · intro x hx
    rw [hmapped]
    obtain ⟨rfl, -⟩ | ⟨-, hold⟩ := Tables.kind_update_cases hx
    · rw [Mem.take_ref, h.ref_free hpage, h.mapped_eq_zero (by rw [hpage]; rintro ⟨⟩),
        Nat.cast_zero]
    · exact h.ref_data hold
  · intro x d i hx
    exact h.ref_pd0 ((not_table_update hpage (by rintro ⟨⟩) (by rintro ⟨⟩)).mp hx)
  · intro x d r hx
    exact h.ref_pt ((not_table_update hpage (by rintro ⟨⟩) (by rintro ⟨⟩)).mp hx)
  · intro x hx
    obtain ⟨-, hk⟩ | ⟨-, hold⟩ := Tables.kind_update_cases hx
    · cases hk
    · exact h.ref_free hold
  · intro x hx
    exact h.ref_dir ((not_table_update hpage (by rintro ⟨⟩) (by rintro ⟨⟩)).mp hx)

/-- A free page becomes a directory with an empty user half. -/
theorem takeDir {page : ℕ} {boot : ℕ → BitVec 64} (h : PageOk s kind dirs)
    (hpage : kind page = .free) (hboot : ∀ i < 2, target (boot i) = none) :
    PageOk ((s.take page).setPage page boot) (Function.update kind page .dir) (insert page dirs) ∧
      (∀ x, ((s.take page).setPage page boot).mapped (insert page dirs) x = s.mapped dirs x) ∧
      (∀ n < 524288, ((s.take page).setPage page boot).pte page n = 0) ∧
      ∀ d ∈ dirs, ∀ n < 524288, ((s.take page).setPage page boot).pte d n = s.pte d n := by
  have hself : ((s.take page).setPage page boot).word page = boot := Function.update_self _ _ _
  have htables : Tables ((s.take page).setPage page boot) (Function.update kind page .dir) :=
    h.tables.use hpage rfl (fun f hf ↦ Function.update_of_ne hf _ _)
      (.inr ⟨rfl, by rw [hself]; exact hboot⟩)
  have hnew : ∀ n < 524288, ((s.take page).setPage page boot).pte page n = 0 := by
    intro n hn
    have hmissing : ((s.take page).setPage page boot).table page (n / 512) = none := by
      rw [Mem.table, Mem.table0, hself, hboot _ (by omega), Option.bind_none]
    exact Mem.pte_of_no_table hmissing
  have hold : ∀ d ∈ dirs, ∀ n < 524288, ((s.take page).setPage page boot).pte d n = s.pte d n := by
    intro d hd n hn
    have hdir := h.kind_dir hd
    refine h.tables.pte_congr htables hdir
      (Tables.kind_update_old hpage hdir (by rintro ⟨⟩)) hn (fun g ↦ ?_) fun g hg ↦ ?_
    · exact not_table_update hpage (by rintro ⟨⟩) (by rintro ⟨⟩)
    · exact Function.update_of_ne (Tables.ne_of_kind hg hpage (by rintro ⟨⟩)) _ _
  have hmapped : ∀ x, ((s.take page).setPage page boot).mapped (insert page dirs) x =
      s.mapped dirs x := by
    intro x
    -- the new directory adds places, and nothing is mapped at any of them
    have hplaces : Mem.places (insert page dirs) =
        Mem.places dirs ∪ {page} ×ˢ Finset.range 524288 := by
      rw [Mem.places, Mem.places, Finset.insert_eq, Finset.union_comm, Finset.union_product]
    rw [Mem.mapped, hplaces, uses_union]
    · exact mapped_congr hold
    · intro q hq
      obtain ⟨hq1, hq2⟩ := Finset.mem_product.mp hq
      rw [Mem.maps, Finset.mem_singleton.mp hq1, hnew q.2 (Finset.mem_range.mp hq2), target_zero]
  refine ⟨⟨htables, ?_, ?_, ?_, ?_, ?_, ?_⟩, hmapped, hnew, hold⟩
  · intro d
    rw [Finset.mem_insert, ← h.dir_iff]
    rcases eq_or_ne d page with rfl | hne
    · rw [Function.update_self]
      exact ⟨fun _ ↦ .inl rfl, fun _ ↦ rfl⟩
    · rw [Function.update_of_ne hne]
      exact ⟨.inr, fun hd ↦ hd.resolve_left hne⟩
  · intro x hx
    rw [hmapped]
    exact h.ref_data ((not_table_update hpage (by rintro ⟨⟩) (by rintro ⟨⟩)).mp hx)
  · intro x d i hx
    exact h.ref_pd0 ((not_table_update hpage (by rintro ⟨⟩) (by rintro ⟨⟩)).mp hx)
  · intro x d r hx
    exact h.ref_pt ((not_table_update hpage (by rintro ⟨⟩) (by rintro ⟨⟩)).mp hx)
  · intro x hx
    obtain ⟨-, hk⟩ | ⟨-, hold⟩ := Tables.kind_update_cases hx
    · cases hk
    · exact h.ref_free hold
  · intro x hx
    obtain ⟨rfl, -⟩ | ⟨-, hold⟩ := Tables.kind_update_cases hx
    · exact h.ref_free hpage
    · exact h.ref_dir hold

/-- A page of data without mappings goes back to the allocator. -/
theorem release {p : ℕ} (h : PageOk s kind dirs) (hp : kind p = .data) (hlt : p < npage)
    (hzero : s.mapped dirs p = 0) :
    PageOk (s.release p) (Function.update kind p .free) dirs := by
  have htables := h.tables.release hp hlt fun hf hk ↦ h.target_ne_of_mapped hzero hf hk
  have hback : ∀ {y l}, Function.update kind p .free y = l → l ≠ .free → kind y = l ∧ y ≠ p := by
    intro y l hy hl
    obtain ⟨-, hk⟩ | ⟨hne, hold⟩ := Tables.kind_update_cases hy
    · exact absurd hk hl
    · exact ⟨hold, hne⟩
  have href : ∀ {y}, y ≠ p → (s.release p).ref y = s.ref y := fun hy ↦ Function.update_of_ne hy _ _
  refine ⟨htables, ?_, ?_, ?_, ?_, ?_, ?_⟩
  · intro d
    rw [← h.dir_iff]
    rcases eq_or_ne d p with rfl | hne
    · rw [Function.update_self, hp]
      exact iff_of_false (by rintro ⟨⟩) (by rintro ⟨⟩)
    · rw [Function.update_of_ne hne]
  · intro x hx
    obtain ⟨hx, hne⟩ := hback hx (by rintro ⟨⟩)
    rw [href hne]
    exact h.ref_data hx
  · intro x d i hx
    obtain ⟨hx, hne⟩ := hback hx (by rintro ⟨⟩)
    rw [href hne, h.ref_pd0 hx]
  · intro x d r hx
    obtain ⟨hx, hne⟩ := hback hx (by rintro ⟨⟩)
    rw [href hne, h.ref_pt hx]
  · intro x hx
    obtain ⟨rfl, -⟩ | ⟨hne, hold⟩ := Tables.kind_update_cases hx
    · exact Function.update_self _ _ _
    · rw [href hne, h.ref_free hold]
  · intro x hx
    obtain ⟨hx, hne⟩ := hback hx (by rintro ⟨⟩)
    rw [href hne, h.ref_dir hx]

end PageOk

end Ucore
