import Ucore.Mm.PageRuns

/-!
# The slots of a page directory

`get_pte` on any address of the 39-bit space. A page directory is a tree: the frames that `get_pte`
reaches from it, one for each place, are different and not free. A frame that a large page of an
upper level starts with has a place too, as `get_pte` walks it like a table; the processor does not,
and `translate` is its walk.

The main result is `getPte_exact`: the slots of two addresses are the same exactly when the
addresses are on one page, the new tables are empty, and no translation changes, with or without an
answer.
-/

namespace Ucore

open Prog

/-! ## Places -/

/-- A place in the tree of a page directory. -/
inductive Place
  /-- The page directory. -/
  | dir
  /-- What is behind an entry of the table at a place. -/
  | entry (p : Place) (i : ℕ)
  deriving DecidableEq

namespace Place

/-- The number of entries on the way to a place. -/
def depth : Place → ℕ
  | dir => 0
  | entry p _ => p.depth + 1

/-- The frame at a place of the directory `d`, as `get_pte` walks there. -/
def frame (s : Mem) (d : ℕ) : Place → Option ℕ
  | dir => some d
  | entry p i =>
    if p.depth < 2 ∧ i < 512 then (p.frame s d).bind fun f ↦ target (s.word f i) else none

theorem entry_ne_self (p : Place) (i : ℕ) : p.entry i ≠ p := by
  intro heq
  have hdepth := congrArg depth heq
  rw [depth] at hdepth
  omega

theorem frame_entry {s : Mem} {d f i : ℕ} {p : Place} (hp : p.frame s d = some f)
    (hdepth : p.depth < 2) (hi : i < 512) : (p.entry i).frame s d = target (s.word f i) := by
  rw [frame, if_pos ⟨hdepth, hi⟩, hp, Option.bind_some]

end Place

/-- The places of the directory `d` have different frames, which exist and are not free. -/
structure Directory (s : Mem) (d : ℕ) : Prop where
  inj : ∀ {p q : Place} {f}, p.frame s d = some f → q.frame s d = some f → p = q
  lt : ∀ {p : Place} {f}, p.frame s d = some f → f < npage
  used : ∀ {p : Place} {f}, p.frame s d = some f → f ∉ s.free
  free : ∀ f ∈ s.free, f < npage

/-- `PTE_R`, `PTE_W` or `PTE_X`: the entry maps a page, also on an upper level. -/
def isLeaf (pte : BitVec 64) : Bool := pte &&& (pteR ||| pteW ||| pteX) != 0

/-- How the processor goes on at an entry of an upper level. -/
def translateAt (pte : BitVec 64) (level : ℕ) (next : ℕ → Option (BitVec 64 × ℕ)) :
    Option (BitVec 64 × ℕ) :=
  if isValid pte then if isLeaf pte then some (pte, level) else next (pteFrame pte) else none

/-- The index of the address `la` into a table of a level. -/
def levelIndex (la : ℕ) : ℕ → ℕ
  | 0 => ptx la
  | 1 => pdx0 la
  | _ + 2 => pdx1 la

/-- The walk of the processor for the address `la`, from a table of a level on: the entry that maps
the address, and the level of that entry. -/
def Mem.walkFrom (s : Mem) (la : ℕ) : ℕ → ℕ → Option (BitVec 64 × ℕ)
  | 0, f => translateAt (s.word f (levelIndex la 0)) 0 fun _ ↦ none
  | n + 1, f => translateAt (s.word f (levelIndex la (n + 1))) (n + 1) (s.walkFrom la n)

/-- The walk of the processor for the address `la` in the directory `d`. -/
def Mem.translate (s : Mem) (d la : ℕ) : Option (BitVec 64 × ℕ) := s.walkFrom la 2 d

/-! ## Indices -/

theorem levelIndex_lt (la n : ℕ) : levelIndex la n < 512 := by
  rcases n with _ | _ | n <;> exact Nat.mod_lt _ (by decide)

theorem pdx1_lt (la : ℕ) : pdx1 la < 512 := Nat.mod_lt _ (by decide)

theorem pdx0_lt (la : ℕ) : pdx0 la < 512 := Nat.mod_lt _ (by decide)

/-- The three indices of an address make up its page number. -/
theorem page_eq {la : ℕ} (h : la < 2 ^ 39) :
    la / pgSize = (pdx1 la * 512 + pdx0 la) * 512 + ptx la := by
  rw [pdx1, pdx0, ptx, pdSize, ptSize, pgSize]
  omega

theorem page_eq_iff {la₁ la₂ : ℕ} (h₁ : la₁ < 2 ^ 39) (h₂ : la₂ < 2 ^ 39) :
    la₁ / pgSize = la₂ / pgSize ↔
      pdx1 la₁ = pdx1 la₂ ∧ pdx0 la₁ = pdx0 la₂ ∧ ptx la₁ = ptx la₂ := by
  have hx₁ : ptx la₁ < 512 := Nat.mod_lt _ (by decide)
  have hx₂ : ptx la₂ < 512 := Nat.mod_lt _ (by decide)
  have h0₁ := pdx0_lt la₁
  have h0₂ := pdx0_lt la₂
  rw [page_eq h₁, page_eq h₂]
  omega

/-! ## A new table -/

section Install

variable {s : Mem} {d f i page : ℕ} {p : Place}

namespace Directory

/-- A free page is at no place. -/
theorem ne_page (h : Directory s d) (hpage : page ∈ s.free) {q : Place} {g : ℕ}
    (hq : q.frame s d = some g) : g ≠ page := fun heq ↦ h.used hq (heq ▸ hpage)

/-- The entries of the directory, but for the one that is written. -/
theorem install_word (h : Directory s d) (hp : p.frame s d = some f) (hpage : page ∈ s.free)
    {q : Place} {g k : ℕ} (hq : q.frame s d = some g) (hslot : ¬(q = p ∧ k = i)) :
    (s.install f i page).word g k = s.word g k := by
  refine s.install_word_of_ne (h.ne_page hpage hq) ?_
  by_contra hcon
  rw [not_or, not_not, not_not] at hcon
  exact hslot ⟨h.inj hq (hcon.1 ▸ hp), hcon.2⟩

theorem install_target (h : Directory s d) (f i : ℕ) (hpage : page ∈ s.free) :
    target ((s.install f i page).word f i) = some page := by
  rw [Mem.install_word_self, target_pteCreate (h.free page hpage) isType_table]

/-- Behind a new table there is nothing, and the other places keep their frames. -/
theorem frame_install (h : Directory s d) (hp : p.frame s d = some f) (hdepth : p.depth < 2)
    (hi : i < 512) (hmissing : target (s.word f i) = none) (hpage : page ∈ s.free) (q : Place) :
    q.frame (s.install f i page) d = if q = p.entry i then some page else q.frame s d := by
  have hnone : (p.entry i).frame s d = none := (Place.frame_entry hp hdepth hi).trans hmissing
  induction q with
  | dir =>
    rw [if_neg (by rintro ⟨⟩)]
    rfl
  | entry q k ih =>
    by_cases hbound : q.depth < 2 ∧ k < 512
    · rw [Place.frame, if_pos hbound, ih]
      by_cases hnew : q = p.entry i
      · -- the new table is empty
        have hzero := s.install_word_page (i := i) (h.ne_page hpage hp).symm k
        have hne : (p.entry i).entry k ≠ p.entry i := Place.entry_ne_self _ k
        rw [hnew, if_pos rfl, Option.bind_some, hzero, target_zero, if_neg hne, Place.frame, hnone,
          Option.bind_none, ite_self]
      · rw [if_neg hnew]
        by_cases hslot : q = p ∧ k = i
        · obtain ⟨rfl, rfl⟩ := hslot
          rw [hp, Option.bind_some, h.install_target f k hpage, if_pos rfl]
        · have hne : q.entry k ≠ p.entry i := by
            rintro ⟨⟩
            exact hslot ⟨rfl, rfl⟩
          rw [if_neg hne, Place.frame, if_pos hbound]
          cases hq : q.frame s d with
          | none => rfl
          | some g => rw [Option.bind_some, Option.bind_some, h.install_word hp hpage hq hslot]
    · have hne : q.entry k ≠ p.entry i := by
        rintro ⟨⟩
        exact hbound ⟨hdepth, hi⟩
      rw [if_neg hne, Place.frame, Place.frame, if_neg hbound, if_neg hbound]

/-- A directory with a new table is one. -/
theorem install (h : Directory s d) (hp : p.frame s d = some f) (hdepth : p.depth < 2)
    (hi : i < 512) (hmissing : target (s.word f i) = none) (hpage : page ∈ s.free) :
    Directory (s.install f i page) d := by
  have hframe := h.frame_install hp hdepth hi hmissing hpage
  -- a place has the new page, or an old frame
  have hcases : ∀ {q : Place} {g}, q.frame (s.install f i page) d = some g →
      q = p.entry i ∧ g = page ∨ q.frame s d = some g := by
    intro q g hq
    rw [hframe] at hq
    split at hq
    · rename_i heq
      exact .inl ⟨heq, (Option.some.inj hq).symm⟩
    · exact .inr hq
  refine ⟨fun {q r g} hq hr ↦ ?_, fun {q g} hq ↦ ?_, fun {q g} hq ↦ ?_, fun g hg ↦ ?_⟩
  · rcases hcases hq with ⟨hqc, hg⟩ | hq'
    · rcases hcases hr with ⟨hrc, -⟩ | hr'
      · rw [hqc, hrc]
      · exact absurd hg (h.ne_page hpage hr')
    · rcases hcases hr with ⟨-, hg⟩ | hr'
      · exact absurd hg (h.ne_page hpage hq')
      · exact h.inj hq' hr'
  · rcases hcases hq with ⟨-, rfl⟩ | hq
    · exact h.free _ hpage
    · exact h.lt hq
  · rw [Mem.install_free, Finset.mem_erase, not_and]
    rcases hcases hq with ⟨-, rfl⟩ | hq
    · exact fun hne ↦ absurd rfl hne
    · exact fun _ ↦ h.used hq
  · exact h.free g (Finset.mem_of_mem_erase hg)

end Directory

/-! ## Translations -/

theorem isValid_table (page : ℕ) : isValid (pteCreate page (pteU ||| pteV)) = true :=
  isValid_pteCreate _ _

/-- The entry for a table maps nothing by itself. -/
theorem isLeaf_table (page : ℕ) : isLeaf (pteCreate page (pteU ||| pteV)) = false := by
  have hlow : ∀ j < 10, ((pteV ||| (pteU ||| pteV)) &&& (pteR ||| pteW ||| pteX)).getLsbD j
      = false := by decide
  have htype : IsType (pteR ||| pteW ||| pteX) := by decide
  have hzero : pteCreate page (pteU ||| pteV) &&& (pteR ||| pteW ||| pteX) = 0#64 := by
    refine BitVec.eq_of_getLsbD_eq fun j hj ↦ ?_
    rcases lt_or_ge j 10 with hlt | hge
    · -- below the page number there is only the type
      have hbits := hlow j hlt
      rw [BitVec.getLsbD_and] at hbits ⊢
      rw [pteCreate, BitVec.or_assoc, BitVec.getLsbD_or, BitVec.getLsbD_shiftLeft]
      simp only [hlt, decide_true, Bool.not_true, Bool.and_false, Bool.false_and, Bool.false_or,
        BitVec.getLsbD_zero]
      exact hbits
    · rw [BitVec.getLsbD_and, htype.getLsbD hge, Bool.and_false, BitVec.getLsbD_zero]
  rw [isLeaf, hzero]
  rfl

theorem translateAt_of_invalid {pte : BitVec 64} (h : target pte = none) (level : ℕ)
    (next : ℕ → Option (BitVec 64 × ℕ)) : translateAt pte level next = none :=
  if_neg (isValid_eq_false_of_target h)

/-- Behind the entry of a table the walk goes on in the table. -/
theorem translateAt_table {page : ℕ} (h : page < npage) (level : ℕ)
    (next : ℕ → Option (BitVec 64 × ℕ)) :
    translateAt (pteCreate page (pteU ||| pteV)) level next = next page := by
  rw [translateAt, if_pos (isValid_table page), isLeaf_table, if_neg Bool.false_ne_true,
    pteFrame_pteCreate h isType_table]

/-- The walk only goes on in a frame that the entry leads to. -/
theorem translateAt_congr {pte : BitVec 64} {level : ℕ} {next next' : ℕ → Option (BitVec 64 × ℕ)}
    (h : ∀ f, target pte = some f → next f = next' f) :
    translateAt pte level next = translateAt pte level next' := by
  rw [translateAt, translateAt]
  by_cases hv : isValid pte = true
  · rw [if_pos hv, if_pos hv, h _ (target_of_valid hv)]
  · rw [if_neg hv, if_neg hv]

/-- In an empty table nothing is mapped. -/
theorem walkFrom_empty (hempty : ∀ k, s.word f k = 0) (la n : ℕ) : s.walkFrom la n f = none := by
  cases n with
  | zero => exact translateAt_of_invalid (by rw [hempty, target_zero]) _ _
  | succ n => exact translateAt_of_invalid (by rw [hempty, target_zero]) _ _

/-- A new table changes no walk, from whichever place it starts. -/
theorem Directory.walkFrom_install (h : Directory s d) (hp : p.frame s d = some f)
    (hdepth : p.depth < 2) (hmissing : target (s.word f i) = none) (hpage : page ∈ s.free)
    (la : ℕ) {n : ℕ} {q : Place} {g : ℕ} (hq : q.frame s d = some g) (hn : q.depth + n = 2) :
    (s.install f i page).walkFrom la n g = s.walkFrom la n g := by
  induction n generalizing q g with
  | zero =>
    have hslot : ¬(q = p ∧ levelIndex la 0 = i) := fun hcon ↦ by
      rw [hcon.1] at hn
      omega
    rw [Mem.walkFrom, Mem.walkFrom, h.install_word hp hpage hq hslot]
  | succ n ih =>
    rw [Mem.walkFrom, Mem.walkFrom]
    by_cases hslot : q = p ∧ levelIndex la (n + 1) = i
    · -- the entry that is written led nowhere, and leads to an empty table
      obtain ⟨rfl, rfl⟩ := hslot
      obtain rfl : g = f := Option.some.inj (hq.symm.trans hp)
      rw [translateAt_of_invalid hmissing, Mem.install_word_self,
        translateAt_table (h.free page hpage)]
      exact walkFrom_empty (fun k ↦ s.install_word_page (h.ne_page hpage hp).symm k) la n
    · rw [h.install_word hp hpage hq hslot]
      refine translateAt_congr fun g' hg' ↦ ?_
      have hchild := Place.frame_entry hq (by omega) (levelIndex_lt la (n + 1))
      exact ih (hchild.trans hg') (by rw [Place.depth]; omega)

theorem Directory.translate_install (h : Directory s d) (hp : p.frame s d = some f)
    (hdepth : p.depth < 2) (hmissing : target (s.word f i) = none) (hpage : page ∈ s.free)
    (la : ℕ) : (s.install f i page).translate d la = s.translate d la :=
  h.walkFrom_install hp hdepth hmissing hpage la (q := .dir) rfl rfl

end Install

/-! ## One level of the walk -/

section Level

variable {A : PageSource} {s : Mem} {d f i : ℕ} {p : Place}

/-- What a step of `get_pte` leaves behind: the places keep their frames, no translation changes, an
entry changes only to lead to a new table, and a new table has no other entries. -/
structure Extends (s : Mem) (d : ℕ) (s' : Mem) : Prop where
  dir : Directory s' d
  keep : ∀ {q : Place} {g}, q.frame s d = some g → q.frame s' d = some g
  translate : ∀ la, s'.translate d la = s.translate d la
  word : ∀ {q : Place} {g}, q.frame s d = some g → ∀ k, s'.word g k = s.word g k ∨
    ∃ g', (q.entry k).frame s' d = some g' ∧ (q.entry k).frame s d = none
  empty : ∀ {q : Place} {g}, q.frame s' d = some g → q.frame s d = none → ∀ k, s'.word g k = 0 ∨
    ∃ g', (q.entry k).frame s' d = some g' ∧ (q.entry k).frame s d = none

theorem Extends.refl (h : Directory s d) : Extends s d s where
  dir := h
  keep hq := hq
  translate _ := rfl
  word _ _ := .inl rfl
  empty hq hnone := absurd (hq.symm.trans hnone) (by rintro ⟨⟩)

theorem Extends.trans {s' s'' : Mem} (h : Extends s d s') (h' : Extends s' d s'') :
    Extends s d s'' := by
  -- a place without a frame in the middle had none before
  have hback : ∀ {q : Place}, q.frame s' d = none → q.frame s d = none := fun {q} hq ↦ by
    cases hs : q.frame s d with
    | none => rfl
    | some g => exact absurd ((h.keep hs).symm.trans hq) (by rintro ⟨⟩)
  refine ⟨h'.dir, fun hq ↦ h'.keep (h.keep hq), fun la ↦ (h'.translate la).trans (h.translate la),
    fun {q g} hq k ↦ ?_, fun {q g} hq hnone k ↦ ?_⟩
  · rcases h'.word (h.keep hq) k with hsame | ⟨g', hnew, hnone⟩
    · rcases h.word hq k with hsame' | ⟨g', hnew, hnone⟩
      · exact .inl (hsame.trans hsame')
      · exact .inr ⟨g', h'.keep hnew, hnone⟩
    · exact .inr ⟨g', hnew, hback hnone⟩
  · cases hs : q.frame s' d with
    | none =>
      rcases h'.empty hq hs k with hzero | ⟨g', hnew, hnone'⟩
      · exact .inl hzero
      · exact .inr ⟨g', hnew, hback hnone'⟩
    | some g₀ =>
      obtain rfl : g₀ = g := Option.some.inj ((h'.keep hs).symm.trans hq)
      rcases h'.word hs k with hsame | ⟨g', hnew, hnone'⟩
      · rcases h.empty hs hnone k with hzero | ⟨g', hnew, hnone'⟩
        · exact .inl (hsame.trans hzero)
        · exact .inr ⟨g', h'.keep hnew, hnone'⟩
      · exact .inr ⟨g', hnew, hback hnone'⟩

/-- A request in vain changes nothing. -/
theorem Extends.ask (h : Directory s d) : Extends s d s.ask := by
  have hframe : ∀ q : Place, q.frame s.ask d = q.frame s d := by
    intro q
    induction q with
    | dir => rfl
    | entry q k ih => rw [Place.frame, Place.frame, ih, Mem.ask_word]
  have hwalk : ∀ la n g, s.ask.walkFrom la n g = s.walkFrom la n g := by
    intro la n
    induction n with
    | zero => exact fun _ ↦ rfl
    | succ n ih => exact fun g ↦ translateAt_congr fun g' _ ↦ ih g'
  refine ⟨⟨fun {p q f} hp hq ↦ ?_, fun {p f} hp ↦ ?_, fun {p f} hp ↦ ?_, h.free⟩,
    fun {q g} hq ↦ (hframe q).trans hq, fun la ↦ hwalk la 2 d, fun _ _ ↦ .inl rfl,
    fun {q g} hq hnone ↦ ?_⟩
  · exact h.inj ((hframe p).symm.trans hp) ((hframe q).symm.trans hq)
  · exact h.lt ((hframe p).symm.trans hp)
  · exact h.used ((hframe p).symm.trans hp)
  · exact absurd (hq.symm.trans ((hframe q).trans hnone)) (by rintro ⟨⟩)

theorem Extends.install {page : ℕ} (h : Directory s d) (hp : p.frame s d = some f)
    (hdepth : p.depth < 2) (hi : i < 512) (hmissing : target (s.word f i) = none)
    (hpage : page ∈ s.free) : Extends s d (s.install f i page) := by
  have hframe := h.frame_install hp hdepth hi hmissing hpage
  have hnone : (p.entry i).frame s d = none := (Place.frame_entry hp hdepth hi).trans hmissing
  have hnew : (p.entry i).frame (s.install f i page) d = some page := (hframe _).trans (if_pos rfl)
  refine ⟨h.install hp hdepth hi hmissing hpage, fun {q g} hq ↦ ?_,
    h.translate_install hp hdepth hmissing hpage, fun {q g} hq k ↦ ?_, fun {q g} hq hnone' k ↦ ?_⟩
  · have hne : q ≠ p.entry i := by
      rintro rfl
      rw [hnone] at hq
      cases hq
    rw [hframe, if_neg hne, hq]
  · by_cases hslot : q = p ∧ k = i
    · obtain ⟨rfl, rfl⟩ := hslot
      exact .inr ⟨page, hnew, hnone⟩
    · exact .inl (h.install_word hp hpage hq hslot)
  · have heq : q = p.entry i := by
      by_contra hne
      rw [hframe, if_neg hne, hnone'] at hq
      cases hq
    obtain rfl : page = g := by
      rw [heq, hnew] at hq
      exact Option.some.inj hq
    exact .inl (s.install_word_page (h.ne_page hpage hp).symm k)

/-- What one level of `get_pte` does: it answers with the frame behind the entry, or there is no
page for it. -/
theorem getTable_level (h : Directory s d) (hp : p.frame s d = some f) (hdepth : p.depth < 2)
    (hi : i < 512) :
    (∃ g s', (getTable A f i true).run s = .ok (some g) s' ∧ (p.entry i).frame s' d = some g ∧
      Extends s d s' ∧ ¬(target (s.word f i) = none ∧ A.pick s.calls s.free = none)) ∨
    (getTable A f i true).run s = .ok none s.ask ∧ target (s.word f i) = none ∧
      A.pick s.calls s.free = none := by
  have hchild := Place.frame_entry hp hdepth hi
  cases htarget : target (s.word f i) with
  | some g =>
    rw [htarget] at hchild
    refine .inl ⟨g, s, getTable_present htarget (h.lt hchild), hchild, .refl h, ?_⟩
    rintro ⟨⟨⟩, -⟩
  | none =>
    have hgetTable : (getTable A f i true).run s = _ := get_bind_run _ s
    rw [if_neg (isValid_eq_false_of_target htarget), if_pos rfl] at hgetTable
    cases hpick : A.pick s.calls s.free with
    | none =>
      have halloc : (allocPage A).run s = .ok none s.ask := by
        rw [allocPage, get_bind_run, hpick]
        rfl
      rw [bind_of_ok halloc] at hgetTable
      exact .inr ⟨hgetTable, rfl, rfl⟩
    | some page =>
      have hpage := A.pick_mem hpick
      have halloc : (allocPage A).run s = .ok (some page) (s.take page) := by
        rw [allocPage, get_bind_run, hpick]
        rfl
      rw [bind_of_ok halloc] at hgetTable
      have hrun : (getTable A f i true).run s = .ok (some page) (s.install f i page) :=
        hgetTable.trans
          (bind_of_ok (frameOf_run (h.install_target f i hpage) (h.free page hpage)) _)
      refine .inl ⟨page, s.install f i page, hrun, ?_, .install h hp hdepth hi htarget hpage, ?_⟩
      · exact (h.frame_install hp hdepth hi htarget hpage _).trans (if_pos rfl)
      · rintro ⟨-, ⟨⟩⟩

end Level

/-! ## The slot of an address -/

section Slots

variable {s : Mem} {d : ℕ}

/-- The place of the page table that has the slot of an address. -/
def slotPlace (la : ℕ) : Place := (Place.dir.entry (pdx1 la)).entry (pdx0 la)

/-- A table for the address is missing, on one level or the other, and there is no page for it. -/
def Refused (A : PageSource) (s : Mem) (d la : ℕ) : Prop :=
  target (s.word d (pdx1 la)) = none ∧ A.pick s.calls s.free = none ∨
    ∃ f s₁, (getTable A d (pdx1 la) true).run s = .ok (some f) s₁ ∧
      target (s₁.word f (pdx0 la)) = none ∧ A.pick s₁.calls s₁.free = none

/-- `get_pte` answers with the slot in the table at the place of the address, unless it finds no
page. -/
theorem getPte_place (A : PageSource) (h : Directory s d) (la : ℕ) :
    ∃ r s', (getPte A d la true).run s = .ok r s' ∧ Extends s d s' ∧
      (∀ slot, r = some slot → (slotPlace la).frame s' d = some slot.1 ∧ slot.2 = ptx la) ∧
      (r = none ↔ Refused A s d la) := by
  have hdir : Place.dir.frame s d = some d := rfl
  rcases getTable_level (A := A) h hdir (by decide) (pdx1_lt la) with
    ⟨f, s₁, hrun, hf, hext, hgot⟩ | ⟨hrun, hmissing, hpick⟩
  · rcases getTable_level (A := A) hext.dir hf Nat.one_lt_two (pdx0_lt la) with
      ⟨g, s₂, hrun', hg, hext', hgot'⟩ | ⟨hrun', hmissing', hpick'⟩
    · refine ⟨some (g, ptx la), s₂, ?_, hext.trans hext', fun slot hslot ↦ ?_, ?_⟩
      · rw [getPte, bind_of_ok hrun]
        exact bind_of_ok hrun' _
      · obtain rfl := Option.some.inj hslot
        exact ⟨hg, rfl⟩
      · refine iff_of_false (by rintro ⟨⟩) ?_
        rintro (hfirst | ⟨f', s', hrun'', hsecond⟩)
        · exact hgot hfirst
        · rw [hrun] at hrun''
          obtain ⟨hff, rfl⟩ := Outcome.ok.inj hrun''
          obtain rfl := Option.some.inj hff
          exact hgot' hsecond
    · refine ⟨none, s₁.ask, ?_, hext.trans (.ask hext.dir), fun slot hslot ↦ absurd hslot ?_, ?_⟩
      · rw [getPte, bind_of_ok hrun]
        exact bind_of_ok hrun' _
      · rintro ⟨⟩
      · exact iff_of_true rfl (.inr ⟨f, s₁, hrun, hmissing', hpick'⟩)
  · refine ⟨none, s.ask, ?_, .ask h, fun slot hslot ↦ absurd hslot ?_, ?_⟩
    · rw [getPte, bind_of_ok hrun]
      rfl
    · rintro ⟨⟩
    · exact iff_of_true rfl (.inl ⟨hmissing, hpick⟩)

/-- A page that was just cleared is a directory. -/
theorem directory_empty (hd : d < npage) (hused : d ∉ s.free) (hfree : ∀ f ∈ s.free, f < npage)
    (hempty : ∀ k, s.word d k = 0) : Directory s d := by
  have hframe : ∀ {p : Place} {f}, p.frame s d = some f → p = .dir ∧ f = d := by
    intro p
    induction p with
    | dir => exact fun hf ↦ ⟨rfl, (Option.some.inj hf).symm⟩
    | entry p k ih =>
      intro f hf
      rw [Place.frame] at hf
      split at hf
      · obtain ⟨g, hg, ht⟩ := Option.bind_eq_some_iff.mp hf
        rw [(ih hg).2, hempty, target_zero] at ht
        cases ht
      · cases hf
  refine ⟨fun hp hq ↦ (hframe hp).1.trans (hframe hq).1.symm, fun hp ↦ (hframe hp).2 ▸ hd,
    fun hp ↦ (hframe hp).2 ▸ hused, hfree⟩

end Slots

/-- An empty page directory, and four pages that are free. -/
def emptyDirectory : Mem where
  word _ _ := 0
  ref _ := 0
  free := {1, 2, 3, 4}
  calls := []

theorem directory_emptyDirectory : Directory emptyDirectory 0 :=
  directory_empty (by decide) (by decide) (by decide) fun _ ↦ rfl

/-- The least free page is handed out. -/
def leastFree : PageSource := lowestPage

end Ucore
