import Ucore.Mm.PageTable

/-!
# The forest of page tables

Every frame has a kind: it is free, a page directory, a table of one of the two lower levels at its
place in a directory, or a page of data. `Tables` says that the kinds are right: every valid entry
of the user half leads to a frame of the kind its place asks for, and every table is reached from
its place. The place is part of the kind, and a frame has one kind, so no table is shared and an
entry is written in one place only.

## What the routines do to it

Looking up an entry changes nothing (`getPte_lookup`, `getPte_present`). Where tables are missing
they are made, and `Grow` describes that: some free frames became empty tables of the kinds that the
way to the page asks for, and nothing that was mapped has changed (`getPte_create`). What is written
afterwards is one word of one table, and `Tables` is kept when the frame that the word names is a
page of data.
-/

namespace Ucore

open Prog

/-! ## Entries -/

theorem isValid_eq (w : BitVec 64) : isValid w = w.getLsbD 0 := by
  have hone : w &&& pteV = BitVec.setWidth 64 (BitVec.ofBool (w.getLsbD 0)) :=
    BitVec.and_one_eq_setWidth_ofBool_getLsbD
  rw [isValid, hone]
  cases w.getLsbD 0 <;> rfl

/-- Only the bits of `type` below the page number count. -/
def IsType (type : BitVec 64) : Prop := type.toNat < 1024

instance (type : BitVec 64) : Decidable (IsType type) := Nat.decLt _ _

theorem IsType.getLsbD {type : BitVec 64} (h : IsType type) {i : ℕ} (hi : 10 ≤ i) :
    type.getLsbD i = false := by
  rw [← BitVec.testBit_toNat]
  exact Nat.testBit_lt_two_pow
    (lt_of_lt_of_le h (Nat.pow_le_pow_right Nat.two_pos hi : 2 ^ 10 ≤ 2 ^ i))

theorem isValid_pteCreate (f : ℕ) (type : BitVec 64) : isValid (pteCreate f type) = true := by
  rw [isValid_eq, pteCreate]
  simp [pteV]

theorem pteFrame_pteCreate {f : ℕ} {type : BitVec 64} (hf : f < npage) (ht : IsType type) :
    pteFrame (pteCreate f type) = f := by
  have hmask : ∀ j < 52, (~~~0x3FF#64).getLsbD (j + 10) = true := by decide
  have hword : (pteCreate f type &&& ~~~0x3FF#64) <<< 2 >>> 12 = BitVec.ofNat 64 f := by
    apply BitVec.eq_of_getLsbD_eq
    intro i hi
    have hidx : 12 + i - 2 = i + 10 := by omega
    have htype := ht.getLsbD (Nat.le_add_left 10 i)
    simp only [pteCreate, pteV, BitVec.getLsbD_ushiftRight, BitVec.getLsbD_shiftLeft, hidx,
      BitVec.getLsbD_and, BitVec.getLsbD_or, htype]
    rcases lt_or_ge i 52 with hlt | hge
    · have hin : 12 + i < 64 ∧ ¬12 + i < 2 ∧ i + 10 < 64 := by omega
      simp only [hmask i hlt, hin]
      simp
    · have hhigh : (BitVec.ofNat 64 f).getLsbD i = false := by
        have hpow : f < 2 ^ i := lt_of_lt_of_le hf
          (le_trans (by decide : npage ≤ 2 ^ 52) (Nat.pow_le_pow_right Nat.two_pos hge))
        rw [BitVec.getLsbD_ofNat, Nat.testBit_lt_two_pow hpow, Bool.and_false]
      have hout : ¬12 + i < 64 := by omega
      simp only [hout, hhigh, decide_false, Bool.false_and]
  rw [pteFrame, hword, BitVec.toNat_ofNat]
  exact Nat.mod_eq_of_lt (hf.trans (by decide))

theorem target_pteCreate {f : ℕ} {type : BitVec 64} (hf : f < npage) (ht : IsType type) :
    target (pteCreate f type) = some f := by
  rw [target, if_pos (isValid_pteCreate f type), pteFrame_pteCreate hf ht]

@[simp] theorem target_zero : target 0 = none := rfl

theorem target_of_valid {w : BitVec 64} (h : isValid w = true) : target w = some (pteFrame w) :=
  if_pos h

theorem target_of_not_valid {w : BitVec 64} (h : ¬isValid w = true) : target w = none := if_neg h

theorem isValid_of_target {w : BitVec 64} {f : ℕ} (h : target w = some f) :
    isValid w = true ∧ pteFrame w = f := by
  rw [target] at h
  split_ifs at h with hv
  exact ⟨hv, Option.some.inj h⟩

theorem isValid_eq_false_of_target {w : BitVec 64} (h : target w = none) : ¬isValid w = true :=
  fun hv ↦ Option.some_ne_none _ ((target_of_valid hv).symm.trans h)

/-- A table entry is a type for itself: `PTE_U | PTE_V`. -/
theorem isType_table : IsType (pteU ||| pteV) := by decide

/-- Permission bits and `PTE_V` make a type. -/
theorem IsType.or_valid {perm : BitVec 64} (h : IsType perm) : IsType (pteV ||| perm) := by
  rw [IsType, BitVec.toNat_or]
  exact Nat.or_lt_two_pow (n := 10) (by decide) h

/-! ## What the tables map -/

namespace Mem

variable (s : Mem)

/-- The level 0 directory behind the entry `i` of the directory `d`. -/
def table0 (d i : ℕ) : Option ℕ := target (s.word d i)

/-- The page table of the directory `d` for the addresses from `r * PTSIZE`. -/
def table (d r : ℕ) : Option ℕ := (s.table0 d (r / 512)).bind fun f ↦ target (s.word f (r % 512))

/-- The entry of the directory `d` for the page number `n`, zero where there is no page table. -/
def pte (d n : ℕ) : BitVec 64 :=
  match s.table d (n / 512) with
  | none => 0
  | some f => s.word f (n % 512)

variable {s}

theorem table_eq_some {d r f : ℕ} :
    s.table d r = some f ↔
      ∃ f0, s.table0 d (r / 512) = some f0 ∧ target (s.word f0 (r % 512)) = some f :=
  Option.bind_eq_some_iff

theorem pte_of_table {d n f : ℕ} (h : s.table d (n / 512) = some f) :
    s.pte d n = s.word f (n % 512) := by
  rw [pte, h]

/-- The entries only depend on the contents of the frames. -/
theorem pte_eq_of_word_eq {s' : Mem} (h : s'.word = s.word) (d n : ℕ) : s'.pte d n = s.pte d n := by
  simp only [pte, table, table0, h]

theorem pte_of_no_table {d n : ℕ} (h : s.table d (n / 512) = none) : s.pte d n = 0 := by
  rw [pte, h]

end Mem

/-! ## Well-formed tables -/

/-- What a frame is used for. -/
inductive FrameKind
  /-- It is with the allocator. -/
  | free
  /-- It is a page directory. -/
  | dir
  /-- It is the level 0 directory behind the entry `i` of the directory `d`. -/
  | pd0 (d i : ℕ)
  /-- It is the page table of the directory `d` for the addresses from `r * PTSIZE`. -/
  | pt (d r : ℕ)
  /-- It is in use for anything else. -/
  | data
  deriving DecidableEq

/-- The entries of the user half lead where they should, and every table is reached. -/
structure Tables (s : Mem) (kind : ℕ → FrameKind) : Prop where
  free : ∀ f, kind f = .free ↔ f ∈ s.free
  lt : ∀ f, kind f ≠ .data → f < npage
  entry_dir : ∀ {d i f}, kind d = .dir → i < 2 → target (s.word d i) = some f → kind f = .pd0 d i
  pd0_up : ∀ {d i f}, kind f = .pd0 d i → kind d = .dir ∧ i < 2 ∧ target (s.word d i) = some f
  entry_pd0 : ∀ {d i j f f0}, kind f0 = .pd0 d i → j < 512 → target (s.word f0 j) = some f →
    kind f = .pt d (512 * i + j)
  pt_up : ∀ {d r f}, kind f = .pt d r →
    ∃ f0, kind f0 = .pd0 d (r / 512) ∧ target (s.word f0 (r % 512)) = some f
  entry_pt : ∀ {d r k f x}, kind f = .pt d r → k < 512 → target (s.word f k) = some x →
    kind x = .data ∧ x < npage

namespace Tables

variable {s : Mem} {kind : ℕ → FrameKind} {d i r n f f0 x : ℕ}

theorem kind_table0 (h : Tables s kind) (hd : kind d = .dir) (hi : i < 2)
    (ht : s.table0 d i = some f) : kind f = .pd0 d i := h.entry_dir hd hi ht

theorem table0_iff (h : Tables s kind) (hd : kind d = .dir) (hi : i < 2) :
    s.table0 d i = some f ↔ kind f = .pd0 d i :=
  ⟨h.kind_table0 hd hi, fun hf ↦ (h.pd0_up hf).2.2⟩

theorem kind_table (h : Tables s kind) (hd : kind d = .dir) (hr : r < 1024)
    (ht : s.table d r = some f) : kind f = .pt d r := by
  obtain ⟨f0, h0, hf⟩ := Mem.table_eq_some.mp ht
  have hkind := h.entry_pd0 (h.kind_table0 hd (by omega) h0) (Nat.mod_lt r (by decide)) hf
  rwa [Nat.div_add_mod] at hkind

theorem table_iff (h : Tables s kind) (hd : kind d = .dir) (hr : r < 1024) :
    s.table d r = some f ↔ kind f = .pt d r := by
  refine ⟨h.kind_table hd hr, fun hf ↦ ?_⟩
  obtain ⟨f0, hf0, ht⟩ := h.pt_up hf
  exact Mem.table_eq_some.mpr ⟨f0, (h.pd0_up hf0).2.2, ht⟩

theorem pt_dir (h : Tables s kind) (hf : kind f = .pt d r) : kind d = .dir ∧ r < 1024 := by
  obtain ⟨f0, hf0, -⟩ := h.pt_up hf
  obtain ⟨hd, hlt, -⟩ := h.pd0_up hf0
  exact ⟨hd, by omega⟩

/-- A mapped page is a data page. -/
theorem kind_of_pte (h : Tables s kind) (hd : kind d = .dir) (hn : n < 524288)
    (ht : target (s.pte d n) = some x) : kind x = .data ∧ x < npage := by
  cases htab : s.table d (n / 512) with
  | none =>
    rw [Mem.pte_of_no_table htab, target_zero] at ht
    exact absurd ht.symm (Option.some_ne_none x)
  | some f =>
    rw [Mem.pte_of_table htab] at ht
    exact h.entry_pt (h.kind_table hd (by omega) htab) (Nat.mod_lt n (by decide)) ht

/-! ## Writes -/

section Kinds

variable {page : ℕ} {k l : FrameKind}

theorem ne_of_kind {a b : ℕ} (ha : kind a = k) (hb : kind b = l) (hkl : k ≠ l) : a ≠ b := by
  rintro rfl
  exact hkl (ha.symm.trans hb)

/-- A page that was free gets a kind; every other frame keeps its own. -/
theorem kind_update_cases (hf : Function.update kind page k f = l) :
    f = page ∧ l = k ∨ f ≠ page ∧ kind f = l := by
  rcases eq_or_ne f page with rfl | hne
  · rw [Function.update_self] at hf
    exact .inl ⟨rfl, hf.symm⟩
  · rw [Function.update_of_ne hne] at hf
    exact .inr ⟨hne, hf⟩

theorem kind_update_old (hpage : kind page = .free) (hf : kind f = l) (hl : l ≠ .free) :
    Function.update kind page k f = l := by
  rw [Function.update_of_ne (ne_of_kind hf hpage hl), hf]

theorem free_update (h : Tables s kind) (hk : k ≠ .free) (f : ℕ) :
    Function.update kind page k f = .free ↔ f ∈ s.free.erase page := by
  rw [Finset.mem_erase, ← h.free]
  rcases eq_or_ne f page with rfl | hne
  · rw [Function.update_self]
    exact iff_of_false hk fun hf ↦ hf.1 rfl
  · rw [Function.update_of_ne hne]
    exact ⟨fun hf ↦ ⟨hne, hf⟩, fun hf ↦ hf.2⟩

theorem lt_of_free (h : Tables s kind) (hpage : kind page = .free) : page < npage :=
  h.lt page (by rw [hpage]; rintro ⟨⟩)

theorem lt_update (h : Tables s kind) (hpage : kind page = .free)
    (hf : Function.update kind page k f ≠ .data) : f < npage := by
  rcases eq_or_ne f page with rfl | hne
  · exact h.lt_of_free hpage
  · rw [Function.update_of_ne hne] at hf
    exact h.lt f hf

end Kinds

section Install

variable {page : ℕ}

/-- A level 0 directory is put in place. -/
theorem install_pd0 (h : Tables s kind) (hd : kind d = .dir) (hi : i < 2)
    (hmissing : target (s.word d i) = none) (hpage : kind page = .free) :
    Tables (s.install d i page) (Function.update kind page (.pd0 d i)) := by
  have hlt := h.lt_of_free hpage
  have hdp : d ≠ page := ne_of_kind hd hpage (by rintro ⟨⟩)
  refine ⟨h.free_update (by rintro ⟨⟩), fun f ↦ h.lt_update hpage, ?_, ?_, ?_, ?_, ?_⟩
  · intro d' i' f hd' hi' ht
    obtain ⟨-, hk⟩ | ⟨hne, hold⟩ := kind_update_cases hd'
    · cases hk
    by_cases hslot : d' = d ∧ i' = i
    -- the new entry
    · obtain ⟨rfl, rfl⟩ := hslot
      rw [Mem.install_word_self, target_pteCreate hlt isType_table] at ht
      rw [← Option.some.inj ht, Function.update_self]
    · rw [Mem.install_word_of_ne _ hne (by tauto)] at ht
      exact kind_update_old hpage (h.entry_dir hold hi' ht) (by rintro ⟨⟩)
  · intro d' i' f hf
    obtain ⟨rfl, hk⟩ | ⟨-, hold⟩ := kind_update_cases hf
    · cases hk
      refine ⟨kind_update_old hpage hd (by rintro ⟨⟩), hi, ?_⟩
      rw [Mem.install_word_self, target_pteCreate hlt isType_table]
    · obtain ⟨hd', hi', ht⟩ := h.pd0_up hold
      refine ⟨kind_update_old hpage hd' (by rintro ⟨⟩), hi', ?_⟩
      -- the slot was empty, so no level 0 directory was found through it
      have hslot : d' ≠ d ∨ i' ≠ i := by
        by_contra hcon
        rw [not_or, not_not, not_not] at hcon
        rw [hcon.1, hcon.2, hmissing] at ht
        cases ht
      rw [Mem.install_word_of_ne _ (ne_of_kind hd' hpage (by rintro ⟨⟩)) hslot, ht]
  · intro d' i' j f f0 hf0 hj ht
    obtain ⟨rfl, -⟩ | ⟨hne, hold⟩ := kind_update_cases hf0
    · rw [Mem.install_word_page _ hdp.symm, target_zero] at ht
      cases ht
    · rw [Mem.install_word_of_ne _ hne (.inl (ne_of_kind hold hd (by rintro ⟨⟩)))] at ht
      exact kind_update_old hpage (h.entry_pd0 hold hj ht) (by rintro ⟨⟩)
  · intro d' r f hf
    obtain ⟨-, hk⟩ | ⟨-, hold⟩ := kind_update_cases hf
    · cases hk
    obtain ⟨f0, hf0, ht⟩ := h.pt_up hold
    refine ⟨f0, kind_update_old hpage hf0 (by rintro ⟨⟩), ?_⟩
    rw [Mem.install_word_of_ne _ (ne_of_kind hf0 hpage (by rintro ⟨⟩))
      (.inl (ne_of_kind hf0 hd (by rintro ⟨⟩))), ht]
  · intro d' r k f x hf hk ht
    obtain ⟨-, hk'⟩ | ⟨hne, hold⟩ := kind_update_cases hf
    · cases hk'
    rw [Mem.install_word_of_ne _ hne (.inl (ne_of_kind hold hd (by rintro ⟨⟩)))] at ht
    obtain ⟨hx, hxlt⟩ := h.entry_pt hold hk ht
    exact ⟨kind_update_old hpage hx (by rintro ⟨⟩), hxlt⟩

/-- A page table is put in place. -/
theorem install_pt (h : Tables s kind) (hf0 : kind f0 = .pd0 d (r / 512))
    (hmissing : target (s.word f0 (r % 512)) = none) (hpage : kind page = .free) :
    Tables (s.install f0 (r % 512) page) (Function.update kind page (.pt d r)) := by
  have hlt := h.lt_of_free hpage
  have hfp : f0 ≠ page := ne_of_kind hf0 hpage (by rintro ⟨⟩)
  refine ⟨h.free_update (by rintro ⟨⟩), fun f ↦ h.lt_update hpage, ?_, ?_, ?_, ?_, ?_⟩
  · intro d' i' f hd' hi' ht
    obtain ⟨-, hk⟩ | ⟨hne, hold⟩ := kind_update_cases hd'
    · cases hk
    rw [Mem.install_word_of_ne _ hne (.inl (ne_of_kind hold hf0 (by rintro ⟨⟩)))] at ht
    exact kind_update_old hpage (h.entry_dir hold hi' ht) (by rintro ⟨⟩)
  · intro d' i' f hf
    obtain ⟨-, hk⟩ | ⟨-, hold⟩ := kind_update_cases hf
    · cases hk
    obtain ⟨hd', hi', ht⟩ := h.pd0_up hold
    refine ⟨kind_update_old hpage hd' (by rintro ⟨⟩), hi', ?_⟩
    rw [Mem.install_word_of_ne _ (ne_of_kind hd' hpage (by rintro ⟨⟩))
      (.inl (ne_of_kind hd' hf0 (by rintro ⟨⟩))), ht]
  · intro d' i' j f g hg hj ht
    obtain ⟨-, hk⟩ | ⟨hne, hold⟩ := kind_update_cases hg
    · cases hk
    by_cases hslot : g = f0 ∧ j = r % 512
    -- the new entry
    · obtain ⟨rfl, rfl⟩ := hslot
      rw [Mem.install_word_self, target_pteCreate hlt isType_table] at ht
      rw [hf0] at hold
      cases hold
      rw [← Option.some.inj ht, Function.update_self, Nat.div_add_mod]
    · rw [Mem.install_word_of_ne _ hne (by tauto)] at ht
      exact kind_update_old hpage (h.entry_pd0 hold hj ht) (by rintro ⟨⟩)
  · intro d' r' f hf
    obtain ⟨rfl, hk⟩ | ⟨-, hold⟩ := kind_update_cases hf
    · cases hk
      refine ⟨f0, kind_update_old hpage hf0 (by rintro ⟨⟩), ?_⟩
      rw [Mem.install_word_self, target_pteCreate hlt isType_table]
    · obtain ⟨g, hg, ht⟩ := h.pt_up hold
      refine ⟨g, kind_update_old hpage hg (by rintro ⟨⟩), ?_⟩
      -- the slot was empty, so no page table was found through it
      have hslot : g ≠ f0 ∨ r' % 512 ≠ r % 512 := by
        by_contra hcon
        rw [not_or, not_not, not_not] at hcon
        rw [hcon.1, hcon.2, hmissing] at ht
        cases ht
      rw [Mem.install_word_of_ne _ (ne_of_kind hg hpage (by rintro ⟨⟩)) hslot, ht]
  · intro d' r' k f x hf hk ht
    obtain ⟨rfl, -⟩ | ⟨hne, hold⟩ := kind_update_cases hf
    · rw [Mem.install_word_page _ hfp.symm, target_zero] at ht
      cases ht
    · rw [Mem.install_word_of_ne _ hne (.inl (ne_of_kind hold hf0 (by rintro ⟨⟩)))] at ht
      obtain ⟨hx, hxlt⟩ := h.entry_pt hold hk ht
      exact ⟨kind_update_old hpage hx (by rintro ⟨⟩), hxlt⟩

end Install

/-- An entry of a page table is written. -/
theorem setWord_pt {k : ℕ} {w : BitVec 64} (h : Tables s kind) (hf : kind f = .pt d r)
    (hw : ∀ x, target w = some x → kind x = .data ∧ x < npage) : Tables (s.setWord f k w) kind where
  free := h.free
  lt := h.lt
  entry_dir {d' i' f'} hd' hi' ht := by
    rw [Mem.setWord_of_ne _ (.inl (ne_of_kind hd' hf (by rintro ⟨⟩)))] at ht
    exact h.entry_dir hd' hi' ht
  pd0_up {d' i' f'} hf' := by
    obtain ⟨hd', hi', ht⟩ := h.pd0_up hf'
    refine ⟨hd', hi', ?_⟩
    rw [Mem.setWord_of_ne _ (.inl (ne_of_kind hd' hf (by rintro ⟨⟩))), ht]
  entry_pd0 {d' i' j f' g} hg hj ht := by
    rw [Mem.setWord_of_ne _ (.inl (ne_of_kind hg hf (by rintro ⟨⟩)))] at ht
    exact h.entry_pd0 hg hj ht
  pt_up {d' r' f'} hf' := by
    obtain ⟨g, hg, ht⟩ := h.pt_up hf'
    refine ⟨g, hg, ?_⟩
    rw [Mem.setWord_of_ne _ (.inl (ne_of_kind hg hf (by rintro ⟨⟩))), ht]
  entry_pt {d' r' k' f' x} hf' hk' ht := by
    by_cases hslot : f' = f ∧ k' = k
    · obtain ⟨rfl, rfl⟩ := hslot
      rw [Mem.setWord_self] at ht
      exact hw x ht
    · rw [Mem.setWord_of_ne _ (by tauto)] at ht
      exact h.entry_pt hf' hk' ht

/-- The tables only depend on the contents of the frames and on which of them are free. -/
theorem of_word_eq {s' : Mem} (h : Tables s kind) (hword : s'.word = s.word)
    (hfree : s'.free = s.free) : Tables s' kind where
  free f := by rw [hfree, h.free]
  lt := h.lt
  entry_dir hd hi ht := h.entry_dir hd hi (hword ▸ ht)
  pd0_up hf := hword.symm ▸ h.pd0_up hf
  entry_pd0 hf hj ht := h.entry_pd0 hf hj (hword ▸ ht)
  pt_up hf := hword.symm ▸ h.pt_up hf
  entry_pt hf hk ht := h.entry_pt hf hk (hword ▸ ht)

/-- What is in the pages of data does not matter. -/
theorem of_word_data {s' : Mem} (h : Tables s kind)
    (hword : ∀ f, kind f ≠ .data → s'.word f = s.word f)
    (hfree : s'.free = s.free) : Tables s' kind where
  free f := by rw [hfree, h.free]
  lt := h.lt
  entry_dir {d i f} hd hi ht := by
    rw [hword d (by rw [hd]; rintro ⟨⟩)] at ht
    exact h.entry_dir hd hi ht
  pd0_up {d i f} hf := by
    obtain ⟨hd, hi, ht⟩ := h.pd0_up hf
    rw [hword d (by rw [hd]; rintro ⟨⟩)]
    exact ⟨hd, hi, ht⟩
  entry_pd0 {d i j f f0} hf0 hj ht := by
    rw [hword f0 (by rw [hf0]; rintro ⟨⟩)] at ht
    exact h.entry_pd0 hf0 hj ht
  pt_up {d r f} hf := by
    obtain ⟨f0, hf0, ht⟩ := h.pt_up hf
    exact ⟨f0, hf0, by rwa [hword f0 (by rw [hf0]; rintro ⟨⟩)]⟩
  entry_pt {d r k f x} hf hk ht := by
    rw [hword f (by rw [hf]; rintro ⟨⟩)] at ht
    exact h.entry_pt hf hk ht

/-- A free page is put to use as a page of data, or as a directory without entries. -/
theorem use {s' : Mem} {page : ℕ} {k : FrameKind} (h : Tables s kind) (hpage : kind page = .free)
    (hfree : s'.free = s.free.erase page) (hword : ∀ f ≠ page, s'.word f = s.word f)
    (hk : k = .data ∨ k = .dir ∧ ∀ i < 2, target (s'.word page i) = none) :
    Tables s' (Function.update kind page k) := by
  have hk_free : k ≠ .free := by
    rintro rfl
    rcases hk with hk | hk
    · cases hk
    · cases hk.1
  -- the page was free, so no table is written
  have hold : ∀ {f l}, kind f = l → l ≠ .free → s'.word f = s.word f := fun hf hl ↦
    hword _ (ne_of_kind hf hpage hl)
  refine ⟨?_, fun f ↦ h.lt_update hpage, ?_, ?_, ?_, ?_, ?_⟩
  · intro f
    rw [hfree, h.free_update hk_free]
  · intro d i f hd hi ht
    obtain ⟨rfl, hkd⟩ | ⟨-, hd⟩ := kind_update_cases hd
    · rcases hk with rfl | hk
      · cases hkd
      · rw [hk.2 i hi] at ht
        cases ht
    · rw [hold hd (by rintro ⟨⟩)] at ht
      exact kind_update_old hpage (h.entry_dir hd hi ht) (by rintro ⟨⟩)
  · intro d i f hf
    obtain ⟨-, hkf⟩ | ⟨-, hf⟩ := kind_update_cases hf
    · subst hkf
      rcases hk with hk | hk
      · cases hk
      · cases hk.1
    · obtain ⟨hd, hi, ht⟩ := h.pd0_up hf
      refine ⟨kind_update_old hpage hd (by rintro ⟨⟩), hi, ?_⟩
      rw [hold hd (by rintro ⟨⟩), ht]
  · intro d i j f f0 hf0 hj ht
    obtain ⟨-, hkf⟩ | ⟨-, hf0⟩ := kind_update_cases hf0
    · subst hkf
      rcases hk with hk | hk
      · cases hk
      · cases hk.1
    · rw [hold hf0 (by rintro ⟨⟩)] at ht
      exact kind_update_old hpage (h.entry_pd0 hf0 hj ht) (by rintro ⟨⟩)
  · intro d r f hf
    obtain ⟨-, hkf⟩ | ⟨-, hf⟩ := kind_update_cases hf
    · subst hkf
      rcases hk with hk | hk
      · cases hk
      · cases hk.1
    · obtain ⟨f0, hf0, ht⟩ := h.pt_up hf
      refine ⟨f0, kind_update_old hpage hf0 (by rintro ⟨⟩), ?_⟩
      rw [hold hf0 (by rintro ⟨⟩), ht]
  · intro d r k' f x hf hk' ht
    obtain ⟨-, hkf⟩ | ⟨-, hf⟩ := kind_update_cases hf
    · subst hkf
      rcases hk with hk | hk
      · cases hk
      · cases hk.1
    · rw [hold hf (by rintro ⟨⟩)] at ht
      obtain ⟨hx, hxlt⟩ := h.entry_pt hf hk' ht
      exact ⟨kind_update_old hpage hx (by rintro ⟨⟩), hxlt⟩

/-- A page of data that is mapped nowhere goes back to the allocator. -/
theorem release {p : ℕ} (h : Tables s kind) (hp : kind p = .data) (hlt : p < npage)
    (hunmapped : ∀ {f d r k}, kind f = .pt d r → k < 512 → target (s.word f k) ≠ some p) :
    Tables (s.release p) (Function.update kind p .free) := by
  have hback : ∀ {f l}, Function.update kind p .free f = l → l ≠ .free → kind f = l := by
    intro f l hf hl
    obtain ⟨-, hk⟩ | ⟨-, hold⟩ := kind_update_cases hf
    · exact absurd hk hl
    · exact hold
  have hkeep : ∀ {f l}, kind f = l → l ≠ .data → Function.update kind p .free f = l := by
    intro f l hf hl
    rw [Function.update_of_ne (ne_of_kind hf hp hl), hf]
  refine ⟨?_, ?_, ?_, ?_, ?_, ?_, ?_⟩
  · intro f
    rw [Mem.release_free, Finset.mem_insert, ← h.free]
    rcases eq_or_ne f p with rfl | hne
    · rw [Function.update_self]
      exact ⟨fun _ ↦ .inl rfl, fun _ ↦ rfl⟩
    · rw [Function.update_of_ne hne]
      exact ⟨.inr, fun hf ↦ hf.resolve_left hne⟩
  · intro f hf
    rcases eq_or_ne f p with rfl | hne
    · exact hlt
    · rw [Function.update_of_ne hne] at hf
      exact h.lt f hf
  · intro d i f hd hi ht
    exact hkeep (h.entry_dir (hback hd (by rintro ⟨⟩)) hi ht) (by rintro ⟨⟩)
  · intro d i f hf
    obtain ⟨hd, hi, ht⟩ := h.pd0_up (hback hf (by rintro ⟨⟩))
    exact ⟨hkeep hd (by rintro ⟨⟩), hi, ht⟩
  · intro d i j f f0 hf0 hj ht
    exact hkeep (h.entry_pd0 (hback hf0 (by rintro ⟨⟩)) hj ht) (by rintro ⟨⟩)
  · intro d r f hf
    obtain ⟨f0, hf0, ht⟩ := h.pt_up (hback hf (by rintro ⟨⟩))
    exact ⟨f0, hkeep hf0 (by rintro ⟨⟩), ht⟩
  · intro d r k f x hf hk ht
    have hold := hback hf (by rintro ⟨⟩)
    obtain ⟨hx, hxlt⟩ := h.entry_pt hold hk ht
    have hne : x ≠ p := by
      rintro rfl
      exact hunmapped hold hk ht
    rw [Function.update_of_ne hne]
    exact ⟨hx, hxlt⟩

/-- Memories with tables in the same places have the same tables. -/
theorem table_congr {s' : Mem} {kind' : ℕ → FrameKind} (h : Tables s kind) (h' : Tables s' kind')
    (hd : kind d = .dir) (hd' : kind' d = .dir) (hr : r < 1024)
    (hsame : ∀ g, kind' g = .pt d r ↔ kind g = .pt d r) : s'.table d r = s.table d r := by
  apply Option.ext
  intro g
  rw [h'.table_iff hd' hr, h.table_iff hd hr]
  exact hsame g

/-- Only free pages changed, so every entry is what it was. -/
theorem pte_congr {s' : Mem} {kind' : ℕ → FrameKind} (h : Tables s kind) (h' : Tables s' kind')
    (hd : kind d = .dir) (hd' : kind' d = .dir) (hn : n < 524288)
    (hsame : ∀ g, kind' g = .pt d (n / 512) ↔ kind g = .pt d (n / 512))
    (hword : ∀ g, kind g = .pt d (n / 512) → s'.word g = s.word g) : s'.pte d n = s.pte d n := by
  have htable := h.table_congr h' hd hd' (by omega) hsame
  cases hg : s.table d (n / 512) with
  | none => rw [Mem.pte_of_no_table hg, Mem.pte_of_no_table (htable.trans hg)]
  | some g =>
    rw [Mem.pte_of_table hg, Mem.pte_of_table (htable.trans hg),
      hword g (h.kind_table hd (by omega) hg)]

/-- A write to a page table shows at one address of one directory. -/
theorem pte_setWord {k d' n' : ℕ} {w : BitVec 64} (h : Tables s kind) (hf : kind f = .pt d r)
    (hk : k < 512) (hw : ∀ x, target w = some x → kind x = .data ∧ x < npage)
    (hd' : kind d' = .dir) (hn' : n' < 524288) :
    (s.setWord f k w).pte d' n' = if d' = d ∧ n' = 512 * r + k then w else s.pte d' n' := by
  have h' := h.setWord_pt (k := k) hf hw
  have htable : (s.setWord f k w).table d' (n' / 512) = s.table d' (n' / 512) :=
    h.table_congr h' hd' hd' (by omega) fun _ ↦ Iff.rfl
  obtain ⟨hd, hr⟩ := h.pt_dir hf
  cases hg : s.table d' (n' / 512) with
  | none =>
    rw [Mem.pte_of_no_table (htable.trans hg), Mem.pte_of_no_table hg, if_neg]
    rintro ⟨rfl, rfl⟩
    rw [Nat.mul_add_div (by decide), Nat.div_eq_of_lt hk, Nat.add_zero,
      (h.table_iff hd hr).mpr hf] at hg
    cases hg
  | some g =>
    have hkind := h.kind_table hd' (by omega) hg
    rw [Mem.pte_of_table (htable.trans hg), Mem.pte_of_table hg]
    by_cases hslot : g = f ∧ n' % 512 = k
    · obtain ⟨rfl, rfl⟩ := hslot
      rw [hf] at hkind
      cases hkind
      rw [Mem.setWord_self, if_pos ⟨rfl, (Nat.div_add_mod n' 512).symm⟩]
    · rw [Mem.setWord_of_ne _ (by tauto), if_neg]
      rintro ⟨rfl, rfl⟩
      rw [Nat.mul_add_div (by decide), Nat.div_eq_of_lt hk, Nat.add_zero,
        (h.table_iff hd hr).mpr hf] at hg
      refine hslot ⟨(Option.some.inj hg).symm, ?_⟩
      rw [Nat.mul_add_mod, Nat.mod_eq_of_lt hk]

end Tables

/-! ## Growth -/

/-- Some free pages became empty tables of the kinds `M`; nothing that was mapped has changed. -/
structure Grow (M : FrameKind → Prop) (s : Mem) (kind : ℕ → FrameKind) (s' : Mem)
    (kind' : ℕ → FrameKind) : Prop where
  tables : Tables s' kind'
  kept : ∀ f, kind f ≠ .free → kind' f = kind f
  made : ∀ f, kind f = .free → kind' f = .free ∨ M (kind' f)
  word_data : ∀ f, kind f = .data → s'.word f = s.word f
  word_pt : ∀ {f d r}, kind f = .pt d r → s'.word f = s.word f
  zero : ∀ {f d r}, kind f = .free → kind' f = .pt d r → ∀ k, s'.word f k = 0
  ref : ∀ f, kind f ≠ .free → s'.ref f = s.ref f
  refNew : ∀ f, kind f = .free → kind' f ≠ .free → s'.ref f = 1
  refFree : ∀ f, kind' f = .free → s'.ref f = s.ref f

/-- The tables on the way to the page `n` of the directory `d`. -/
def OnPath (d n : ℕ) (k : FrameKind) : Prop := k = .pd0 d (n / 512 / 512) ∨ k = .pt d (n / 512)

namespace Grow

variable {M : FrameKind → Prop} {s s' s'' : Mem} {kind kind' kind'' : ℕ → FrameKind} {d n f : ℕ}

theorem refl (h : Tables s kind) : Grow M s kind s kind where
  tables := h
  kept _ _ := rfl
  made _ hf := .inl hf
  word_data _ _ := rfl
  word_pt _ := rfl
  zero hf hf' := by
    rw [hf] at hf'
    cases hf'
  ref _ _ := rfl
  refNew f hf hf' := absurd hf hf'
  refFree _ _ := rfl

/-- A request that got no page changes no more than the count of requests. -/
theorem ask (h : Tables s kind) : Grow M s kind s.ask kind where
  tables := ⟨h.free, h.lt, h.entry_dir, h.pd0_up, h.entry_pd0, h.pt_up, h.entry_pt⟩
  kept _ _ := rfl
  made _ hf := .inl hf
  word_data _ _ := rfl
  word_pt _ := rfl
  zero hf hf' := by
    rw [hf] at hf'
    cases hf'
  ref _ _ := rfl
  refNew f hf hf' := absurd hf hf'
  refFree _ _ := rfl

theorem trans (h : Grow M s kind s' kind') (h' : Grow M s' kind' s'' kind'') :
    Grow M s kind s'' kind'' where
  tables := h'.tables
  kept f hf := by
    have hkept := h.kept f hf
    rw [h'.kept f (hkept ▸ hf), hkept]
  made f hf := by
    rcases h.made f hf with hfree | hM
    · exact h'.made f hfree
    · by_cases hfree : kind' f = .free
      · exact h'.made f hfree
      · rw [h'.kept f hfree]
        exact .inr hM
  word_data f hf := by
    rw [h'.word_data f ((h.kept f (by rw [hf]; rintro ⟨⟩)).trans hf), h.word_data f hf]
  word_pt {f d r} hf := by
    rw [h'.word_pt ((h.kept f (by rw [hf]; rintro ⟨⟩)).trans hf), h.word_pt hf]
  zero {f d r} hf hf'' k := by
    by_cases hfree : kind' f = .free
    · exact h'.zero hfree hf'' k
    · have hf' : kind' f = .pt d r := by rw [← h'.kept f hfree, hf'']
      rw [h'.word_pt hf', h.zero hf hf' k]
  ref f hf := by
    rw [h'.ref f (by rwa [h.kept f hf]), h.ref f hf]
  refNew f hf hf'' := by
    by_cases hfree : kind' f = .free
    · exact h'.refNew f hfree hf''
    · rw [h'.ref f hfree, h.refNew f hf hfree]
  refFree f hf'' := by
    have hf' : kind' f = .free := by
      by_contra hne
      rw [h'.kept f hne] at hf''
      exact hne hf''
    rw [h'.refFree f hf'', h.refFree f hf']

/-- Every entry for a page is what it was. -/
theorem pte (h : Grow M s kind s' kind') (h₀ : Tables s kind) (hd : kind d = .dir)
    (hn : n < 524288) : s'.pte d n = s.pte d n := by
  have hd' : kind' d = .dir := by rw [h.kept d (by rw [hd]; rintro ⟨⟩), hd]
  have hr : n / 512 < 1024 := by omega
  cases hg : s.table d (n / 512) with
  | some g =>
    have hkind := h₀.kind_table hd hr hg
    have hkind' : kind' g = .pt d (n / 512) := by
      rw [h.kept g (by rw [hkind]; rintro ⟨⟩), hkind]
    rw [Mem.pte_of_table hg, Mem.pte_of_table ((h.tables.table_iff hd' hr).mpr hkind'),
      h.word_pt hkind]
  | none =>
    rw [Mem.pte_of_no_table hg]
    cases hg' : s'.table d (n / 512) with
    | none => exact Mem.pte_of_no_table hg'
    | some g =>
      have hkind' := h.tables.kind_table hd' hr hg'
      have hfree : kind g = .free := by
        by_contra hne
        rw [h.kept g hne, ← h₀.table_iff hd hr, hg] at hkind'
        cases hkind'
      rw [Mem.pte_of_table hg', h.zero hfree hkind']

/-- A page that is put in place as a table is all that changes. -/
theorem of_install {g j page : ℕ} {k : FrameKind}
    (h' : Tables (s.install g j page) (Function.update kind page k))
    (hdata : kind g ≠ .data) (hpt : ∀ d r, kind g ≠ .pt d r) (hfree : kind g ≠ .free)
    (hpage : kind page = .free)
    (hk : k ≠ .free) (hM : M k) :
    Grow M s kind (s.install g j page) (Function.update kind page k) where
  tables := h'
  kept f hf := Tables.kind_update_old hpage rfl hf
  made f hf := by
    rcases eq_or_ne f page with rfl | hne
    · rw [Function.update_self]
      exact .inr hM
    · rw [Function.update_of_ne hne]
      exact .inl hf
  word_data f hf := by
    funext k
    exact s.install_word_of_ne (Tables.ne_of_kind hf hpage (by rintro ⟨⟩))
      (.inl fun heq ↦ hdata (heq ▸ hf))
  word_pt {f d' r} hf := by
    funext k
    exact s.install_word_of_ne (Tables.ne_of_kind hf hpage (by rintro ⟨⟩))
      (.inl fun heq ↦ hpt d' r (heq ▸ hf))
  zero {f d' r} hf hf' k := by
    have hne : page ≠ g := fun heq ↦ hfree (heq ▸ hpage)
    rcases Tables.kind_update_cases hf' with ⟨rfl, -⟩ | ⟨-, hold⟩
    · exact s.install_word_page hne k
    · rw [hf] at hold
      cases hold
  ref f hf := by
    have hne : f ≠ page := fun heq ↦ hf (heq ▸ hpage)
    rw [Mem.install_ref, Function.update_of_ne hne]
  refNew f hf hf' := by
    rcases eq_or_ne f page with rfl | hne
    · rw [Mem.install_ref, Function.update_self]
    · rw [Function.update_of_ne hne] at hf'
      exact absurd hf hf'
  refFree f hf := by
    rcases eq_or_ne f page with rfl | hne
    · rw [Function.update_self] at hf
      exact absurd hf hk
    · rw [Mem.install_ref, Function.update_of_ne hne]

theorem install_pd0 {i page : ℕ} (h : Tables s kind) (hd : kind d = .dir) (hi : i < 2)
    (hmissing : target (s.word d i) = none) (hpage : kind page = .free) (hM : M (.pd0 d i)) :
    Grow M s kind (s.install d i page) (Function.update kind page (.pd0 d i)) :=
  of_install (h.install_pd0 hd hi hmissing hpage) (by rw [hd]; rintro ⟨⟩)
    (by rw [hd]; rintro _ _ ⟨⟩) (by rw [hd]; rintro ⟨⟩) hpage (by rintro ⟨⟩) hM

theorem install_pt {r f0 page : ℕ} (h : Tables s kind) (hf0 : kind f0 = .pd0 d (r / 512))
    (hmissing : target (s.word f0 (r % 512)) = none) (hpage : kind page = .free)
    (hM : M (.pt d r)) :
    Grow M s kind (s.install f0 (r % 512) page) (Function.update kind page (.pt d r)) :=
  of_install (h.install_pt hf0 hmissing hpage) (by rw [hf0]; rintro ⟨⟩)
    (by rw [hf0]; rintro _ _ ⟨⟩) (by rw [hf0]; rintro ⟨⟩) hpage (by rintro ⟨⟩) hM

end Grow

/-! ## The routines -/

section Routines

variable {A : PageSource} {s : Mem} {kind : ℕ → FrameKind} {d n f f0 : ℕ}

/-- The allocator answers with a page that was free, or was asked in vain. -/
theorem allocPage_run (A : PageSource) (s : Mem) :
    (allocPage A).run s = .ok none s.ask ∨
      ∃ page ∈ s.free, (allocPage A).run s = .ok (some page) (s.take page) := by
  rw [allocPage, get_bind_run]
  cases hpick : A.pick s.calls s.free with
  | none => exact .inl rfl
  | some page => exact .inr ⟨page, A.pick_mem hpick, rfl⟩

theorem frameOf_run {w : BitVec 64} (ht : target w = some f) (hlt : f < npage) :
    (frameOf w).run s = .ok f s := by
  obtain ⟨-, rfl⟩ := isValid_of_target ht
  rw [frameOf, assert_bind_run hlt]
  rfl

theorem getTable_present {create : Bool} {i : ℕ} (ht : target (s.word f i) = some f0)
    (hlt : f0 < npage) : (getTable A f i create).run s = .ok (some f0) s := by
  rw [getTable, get_bind_run, if_pos (isValid_of_target ht).1, bind_of_ok (frameOf_run ht hlt)]
  rfl

theorem getTable_missing {i : ℕ} (ht : target (s.word f i) = none) :
    (getTable A f i false).run s = .ok none s := by
  rw [getTable, get_bind_run, if_neg (isValid_eq_false_of_target ht)]
  rfl

/-- A missing table is made when there is a page for it. -/
theorem getTable_create {i : ℕ} (ht : target (s.word f i) = none)
    (hfree : ∀ page ∈ s.free, page < npage) :
    (getTable A f i true).run s = .ok none s.ask ∨
      ∃ page ∈ s.free, (getTable A f i true).run s = .ok (some page) (s.install f i page) := by
  rw [getTable, get_bind_run, if_neg (isValid_eq_false_of_target ht), if_pos rfl]
  rcases allocPage_run A s with hrun | ⟨page, hpage, hrun⟩
  · rw [bind_of_ok hrun]
    exact .inl rfl
  · rw [bind_of_ok hrun]
    refine .inr ⟨page, hpage, ?_⟩
    have htarget : target ((s.install f i page).word f i) = some page := by
      rw [Mem.install_word_self, target_pteCreate (hfree page hpage) isType_table]
    exact bind_of_ok (frameOf_run htarget (hfree page hpage)) _

/-- The indices of a user address are parts of its page number. -/
theorem pdx1_eq {la : ℕ} (h : la < userTop) : pdx1 la = la / pgSize / 512 / 512 := by
  rw [pdx1, pdSize, pgSize]
  rw [userTop] at h
  omega

theorem pdx0_eq (la : ℕ) : pdx0 la = la / pgSize / 512 % 512 := by
  rw [pdx0, ptSize, pgSize]
  omega

theorem page_lt {la : ℕ} (h : la < userTop) : la / pgSize < 524288 := by
  rw [pgSize]
  rw [userTop] at h
  omega

/-- Without `create` the tables are looked up. -/
theorem getPte_lookup {la : ℕ} (h : Tables s kind) (hd : kind d = .dir) (hla : la < userTop) :
    (getPte A d la false).run s =
      .ok ((s.table d (la / pgSize / 512)).map fun f ↦ (f, la / pgSize % 512)) s := by
  have hn := page_lt hla
  rw [getPte, pdx1_eq hla, pdx0_eq]
  cases h0 : s.table0 d (la / pgSize / 512 / 512) with
  | none =>
    rw [bind_of_ok (getTable_missing h0), Mem.table, h0]
    rfl
  | some f0 =>
    have hkind := h.kind_table0 hd (by omega) h0
    rw [bind_of_ok (getTable_present h0 (h.lt f0 (by rw [hkind]; rintro ⟨⟩)))]
    cases h1 : target (s.word f0 (la / pgSize / 512 % 512)) with
    | none =>
      simp only
      rw [bind_of_ok (getTable_missing h1), Mem.table, h0, Option.bind_some, h1]
      rfl
    | some f =>
      have htable : s.table d (la / pgSize / 512) = some f := Mem.table_eq_some.mpr ⟨f0, h0, h1⟩
      have hkind' := h.kind_table hd (by omega) htable
      simp only
      rw [bind_of_ok (getTable_present h1 (h.lt f (by rw [hkind']; rintro ⟨⟩))), htable]
      rfl

/-- A table that is there is found, and nothing changes. -/
theorem getPte_present {la : ℕ} {create : Bool} (h : Tables s kind) (hd : kind d = .dir)
    (hla : la < userTop) (ht : s.table d (la / pgSize / 512) = some f) :
    (getPte A d la create).run s = .ok (some (f, la / pgSize % 512)) s := by
  have hn := page_lt hla
  obtain ⟨f0, h0, h1⟩ := Mem.table_eq_some.mp ht
  have hkind := h.kind_table0 hd (by omega) h0
  have hkind' := h.kind_table hd (by omega) ht
  rw [getPte, pdx1_eq hla, pdx0_eq,
    bind_of_ok (getTable_present h0 (h.lt f0 (by rw [hkind]; rintro ⟨⟩)))]
  simp only
  rw [bind_of_ok (getTable_present h1 (h.lt f (by rw [hkind']; rintro ⟨⟩)))]
  rfl

theorem Tables.free_lt (h : Tables s kind) : ∀ page ∈ s.free, page < npage := fun page hpage ↦
  h.lt_of_free ((h.free page).mpr hpage)

/-- With `create` the tables on the way are made, as far as there are pages for them. -/
theorem getPte_create {la : ℕ} (h : Tables s kind) (hd : kind d = .dir) (hla : la < userTop) :
    ∃ s' kind', Grow (OnPath d (la / pgSize)) s kind s' kind' ∧
      ((getPte A d la true).run s = .ok none s' ∨
        ∃ f, kind' f = .pt d (la / pgSize / 512) ∧
          (getPte A d la true).run s = .ok (some (f, la / pgSize % 512)) s') := by
  have hn := page_lt hla
  -- the lower level, from a memory in which the upper one is there
  have hlower : ∀ {s₁ : Mem} {kind₁ : ℕ → FrameKind} {f0 : ℕ}, Tables s₁ kind₁ →
      kind₁ f0 = .pd0 d (la / pgSize / 512 / 512) →
      ∃ s' kind', Grow (OnPath d (la / pgSize)) s₁ kind₁ s' kind' ∧
        ((getTable A f0 (la / pgSize / 512 % 512) true).run s₁ = .ok none s' ∨
          ∃ f, kind' f = .pt d (la / pgSize / 512) ∧
            (getTable A f0 (la / pgSize / 512 % 512) true).run s₁ = .ok (some f) s') := by
    intro s₁ kind₁ f0 h₁ hf0
    cases ht : target (s₁.word f0 (la / pgSize / 512 % 512)) with
    | some f =>
      have hkind := h₁.entry_pd0 hf0 (Nat.mod_lt _ (by decide)) ht
      rw [Nat.div_add_mod] at hkind
      refine ⟨s₁, kind₁, .refl h₁, .inr ⟨f, hkind, ?_⟩⟩
      exact getTable_present ht (h₁.lt f (by rw [hkind]; rintro ⟨⟩))
    | none =>
      rcases getTable_create (A := A) ht h₁.free_lt with hrun | ⟨page, hpage, hrun⟩
      · exact ⟨s₁.ask, kind₁, .ask h₁, .inl hrun⟩
      · refine ⟨_, _, .install_pt h₁ hf0 ht ((h₁.free page).mpr hpage) (.inr rfl), .inr ⟨page, ?_,
          hrun⟩⟩
        rw [Function.update_self]
  rw [getPte, pdx1_eq hla, pdx0_eq]
  cases h0 : s.table0 d (la / pgSize / 512 / 512) with
  | some f0 =>
    have hkind := h.kind_table0 hd (by omega) h0
    rw [bind_of_ok (getTable_present h0 (h.lt f0 (by rw [hkind]; rintro ⟨⟩)))]
    obtain ⟨s', kind', hgrow, hrun | ⟨f, hf, hrun⟩⟩ := hlower h hkind
    · exact ⟨s', kind', hgrow, .inl (bind_of_ok hrun _)⟩
    · exact ⟨s', kind', hgrow, .inr ⟨f, hf, bind_of_ok hrun _⟩⟩
  | none =>
    rcases getTable_create (A := A) h0 h.free_lt with hrun | ⟨page, hpage, hrun⟩
    · exact ⟨s.ask, kind, .ask h, .inl (bind_of_ok hrun _)⟩
    · have hgrow₁ : Grow (OnPath d (la / pgSize)) s kind _ _ :=
        .install_pd0 h hd (by omega) h0 ((h.free page).mpr hpage) (.inl rfl)
      rw [bind_of_ok hrun]
      obtain ⟨s', kind', hgrow, hrun' | ⟨f, hf, hrun'⟩⟩ :=
        hlower hgrow₁.tables (Function.update_self page _ kind)
      · exact ⟨s', kind', hgrow₁.trans hgrow, .inl (bind_of_ok hrun' _)⟩
      · exact ⟨s', kind', hgrow₁.trans hgrow, .inr ⟨f, hf, bind_of_ok hrun' _⟩⟩

end Routines

end Ucore
