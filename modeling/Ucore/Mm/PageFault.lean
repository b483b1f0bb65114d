import Ucore.Mm.Vma

/-!
# Page faults

`do_pgfault` of `kern/mm/vmm.c`, with `swap_in`. The rights that it gives a page are those to read
and write when the area can be written to, and no rights at all otherwise: the entry is then valid,
but it is not a leaf, and every access to the page faults again. So the page gets the rights of its
area exactly when these are to read and to write (`doPgfault_exact_iff`).
-/

namespace Ucore.AddrSpace

open Prog

/-! ## The handler -/

def vmExec : BitVec 32 := 4

def readWrite : BitVec 64 := pteR ||| pteW ||| pteV

/-- `perm` of `do_pgfault`. -/
def faultPerm (vmFlags : BitVec 32) : BitVec 64 :=
  if vmFlags &&& vmWrite ≠ 0 then pteU ||| readWrite else pteU

section Fault

variable (A : PageSource) (swapInitOk : Bool) (swapfsRead : BitVec 64 → Option (ℕ → BitVec 64))

/-- `swap_in`. What `swapfs_read` leaves in the page is a parameter; it has no answer for an entry
that is no place in the swap area. -/
def swapIn (pgdir addr : ℕ) : MemProg ℕ := do
  let result ← allocPage A
  match result with
  | none => halt
  | some result => do
    let ptep ← getPte A pgdir addr false
    match ptep with
    | none => halt
    | some ptep => do
      let s ← get
      match swapfsRead (s.word ptep.1 ptep.2) with
      | none => halt
      | some page => do
        modify fun s ↦ s.setPage result page
        pure result

/-- `do_pgfault` from the test of the entry on; `none` is the return value 0. -/
def fillEntry (pgdir addr : ℕ) (perm : BitVec 64) (ptep : ℕ × ℕ) : MemProg (Option Errno) := do
  let s ← get
  if s.word ptep.1 ptep.2 = 0 then do
    let page ← pgdirAllocPage A pgdir addr perm
    match page with
    | none => pure (some .noMem)
    | some _ => pure none
  else if swapInitOk then do
    let page ← swapIn A swapfsRead pgdir addr
    let _ ← attempt (pageInsert A pgdir page addr perm)
    pure none
  else
    pure (some .noMem)

/-- `do_pgfault` in the area that `find_vma` has found. -/
def faultIn (vma : Vma) (pgdir addr : ℕ) : MemProg (Option Errno) := do
  if vma.vmStart > addr then pure (some .inval)
  else do
    let ptep ← getPte A pgdir (roundDown addr) true
    match ptep with
    | none => pure (some .noMem)
    | some ptep =>
      fillEntry A swapInitOk swapfsRead pgdir (roundDown addr) (faultPerm vma.vmFlags) ptep

/-- `do_pgfault`; `none` is the return value 0. The error code is not looked at. -/
def doPgfault (mm : Mm) (_errorCode addr : ℕ) : MemProg (Option Errno × Mm) :=
  match findVma mm addr with
  | (none, mm) => pure (some .inval, mm)
  | (some vma, mm) => do
    let ret ← faultIn A swapInitOk swapfsRead vma mm.pgdir addr
    pure (ret, mm)

end Fault

/-! ## Rights -/

/-- What a process does with an address. -/
inductive AccessKind
  | read
  | write
  | exec
  deriving DecidableEq, Repr

/-- An entry that the processor uses to translate for a process: it is valid, for the user, and not
a pointer to a further table, and its rights are not the reserved ones. -/
def Leaf (pte : BitVec 64) : Prop :=
  (isValid pte = true ∧ pte &&& pteU ≠ 0) ∧ (pte &&& pteR ≠ 0 ∨ pte &&& pteX ≠ 0) ∧
    (pte &&& pteW ≠ 0 → pte &&& pteR ≠ 0)

/-- The bit for a right. -/
def AccessKind.bit : AccessKind → BitVec 64
  | .read => pteR
  | .write => pteW
  | .exec => pteX

/-- The flag for a right. -/
def AccessKind.flag : AccessKind → BitVec 32
  | .read => vmRead
  | .write => vmWrite
  | .exec => vmExec

/-- The area permits an access. -/
def Vma.Permits (v : Vma) (a : AccessKind) : Prop := v.vmFlags &&& a.flag ≠ 0

/-- The page gets exactly the rights of the area when 0 is returned, and an access that no area
permits is answered by an error, with all entries as they were. -/
structure FaultExact (s : Mem) (dirs : Finset ℕ) (mm : Mm) (addr : ℕ) (access : AccessKind)
    (result : Outcome Errno Mem (Option Errno × Mm)) : Prop where
  granted : ∀ mm' t, result = .ok (none, mm') t → ∃ v, (findVma mm addr).1 = some v ∧
    Leaf (t.pte mm.pgdir (addr / pgSize)) ∧
    (∀ a : AccessKind, t.pte mm.pgdir (addr / pgSize) &&& a.bit ≠ 0 ↔ v.Permits a) ∧
    t.pte mm.pgdir (addr / pgSize) &&& access.bit ≠ 0
  refused : (∀ v, (findVma mm addr).1 = some v → ¬v.Permits access) →
    ∃ e mm' t, result = .ok (some e, mm') t ∧ ∀ d ∈ dirs, ∀ n < 524288, t.pte d n = s.pte d n

/-! ## What the allocator is asked for -/

/-- The allocator after `k` requests that were all answered, after the calls `t` and with the
pages `S`. -/
def serve (A : PageSource) : ℕ → List PageReq → Finset ℕ → Option (List PageReq × Finset ℕ)
  | 0, t, S => some (t, S)
  | k + 1, t, S =>
    match A.pick t S with
    | none => none
    | some f => serve A k (.alloc :: t) (S.erase f)

/-- The number of tables that are missing on the way to a page. -/
def missing (s : Mem) (d n : ℕ) : ℕ :=
  if (s.table d (n / 512)).isSome then 0 else if (s.table0 d (n / 512 / 512)).isSome then 1 else 2

/-- There is no page where one is asked for, or the entry is in use and nothing is swapped. -/
def Denied (A : PageSource) (swapInitOk : Bool) (s : Mem) (d n : ℕ) : Prop :=
  (s.pte d n = 0 ∧ serve A (missing s d n + 1) s.calls s.free = none) ∨
    (s.pte d n ≠ 0 ∧ swapInitOk = false)

/-- `swap_in` stops the machine. -/
def Stopped (A : PageSource) (swapInitOk : Bool) (swapfsRead : BitVec 64 → Option (ℕ → BitVec 64))
    (s : Mem) (d n : ℕ) : Prop :=
  s.pte d n ≠ 0 ∧ swapInitOk = true ∧ (A.pick s.calls s.free = none ∨ swapfsRead (s.pte d n) = none)

/-- When the handler does the right thing: the rights of the area are to read and to write, and the
access is one of these; or the call fails for want of memory; or the access is permitted and the
machine stops. -/
def FaultCond (A : PageSource) (swapInitOk : Bool) (swapfsRead : BitVec 64 → Option (ℕ → BitVec 64))
    (s : Mem) (mm : Mm) (addr : ℕ) (access : AccessKind) : Prop :=
  ∀ v, (findVma mm addr).1 = some v →
    ((v.Permits .read ∧ v.Permits .write ∧ ¬v.Permits .exec) ∧ access ≠ .exec) ∨
      Denied A swapInitOk s mm.pgdir (addr / pgSize) ∨
      (Stopped A swapInitOk swapfsRead s mm.pgdir (addr / pgSize) ∧ v.Permits access)

/-! ## The rights of an entry -/

section Bits

variable {page : ℕ} {vmFlags : BitVec 32}

/-- The low bits of an entry are its type. -/
theorem pteCreate_and (page : ℕ) {type m : BitVec 64} (hm : IsType m) :
    pteCreate page type &&& m = (pteV ||| type) &&& m := by
  have hframe : BitVec.ofNat 64 page <<< 10 &&& m = 0#64 := by
    apply BitVec.eq_of_getLsbD_eq
    intro i hi
    rw [BitVec.getLsbD_and, BitVec.getLsbD_zero, Bool.and_eq_false_iff]
    by_cases hlow : i < 10
    · left
      rw [BitVec.getLsbD_shiftLeft]
      simp [hlow]
    · right
      exact hm.getLsbD (not_lt.mp hlow)
  rw [pteCreate, BitVec.or_assoc, BitVec.and_comm, BitVec.and_or_distrib_left, BitVec.and_comm,
    hframe, BitVec.zero_or, BitVec.and_comm]

theorem isType_faultPerm (vmFlags : BitVec 32) : IsType (faultPerm vmFlags) := by
  rw [faultPerm]
  split_ifs
  · decide
  · decide

/-- The entry of an area that can be written to. -/
theorem faultPerm_write (h : vmFlags &&& vmWrite ≠ 0) (page : ℕ) :
    Leaf (pteCreate page (pteV ||| faultPerm vmFlags)) ∧
      ∀ a : AccessKind, pteCreate page (pteV ||| faultPerm vmFlags) &&& a.bit ≠ 0 ↔ a ≠ .exec := by
  rw [faultPerm, if_pos h, Leaf, isValid, pteCreate_and page (m := pteV) (by decide),
    pteCreate_and page (m := pteU) (by decide), pteCreate_and page (m := pteR) (by decide),
    pteCreate_and page (m := pteX) (by decide), pteCreate_and page (m := pteW) (by decide)]
  refine ⟨by decide, fun a ↦ ?_⟩
  cases a with
  | read =>
    rw [AccessKind.bit, pteCreate_and page (by decide)]
    decide
  | write =>
    rw [AccessKind.bit, pteCreate_and page (by decide)]
    decide
  | exec =>
    rw [AccessKind.bit, pteCreate_and page (by decide)]
    decide

/-- That of another area is no leaf. -/
theorem faultPerm_not_leaf (h : ¬vmFlags &&& vmWrite ≠ 0) (page : ℕ) :
    ¬Leaf (pteCreate page (pteV ||| faultPerm vmFlags)) := by
  rw [faultPerm, if_neg h, Leaf, isValid, pteCreate_and page (m := pteV) (by decide),
    pteCreate_and page (m := pteU) (by decide), pteCreate_and page (m := pteR) (by decide),
    pteCreate_and page (m := pteX) (by decide), pteCreate_and page (m := pteW) (by decide)]
  decide

end Bits

/-! ## Tables on demand -/

section Run

variable {A : PageSource} {swapInitOk : Bool} {swapfsRead : BitVec 64 → Option (ℕ → BitVec 64)}
  {s s' : Mem} {kind : ℕ → FrameKind} {dirs : Finset ℕ} {d f n la page : ℕ} {perm : BitVec 64}

theorem serve_add (A : PageSource) (k l : ℕ) (t : List PageReq) (S : Finset ℕ) :
    serve A (k + l) t S = (serve A k t S).bind fun x ↦ serve A l x.1 x.2 := by
  induction k generalizing t S with
  | zero => rw [Nat.zero_add, serve, Option.bind_some]
  | succ k ih =>
    rw [Nat.succ_add, serve, serve]
    cases A.pick t S with
    | none => rfl
    | some f => exact ih (.alloc :: t) (S.erase f)

theorem serve_one_eq_none {t : List PageReq} {S : Finset ℕ} :
    serve A 1 t S = none ↔ A.pick t S = none := by
  rw [serve]
  cases A.pick t S with
  | none => exact iff_of_true rfl rfl
  | some f => exact iff_of_false (Option.some_ne_none _) (Option.some_ne_none _)

/-- A missing table costs a page. -/
theorem getTable_serve {i : ℕ} (ht : target (s.word f i) = none)
    (hfree : ∀ page ∈ s.free, page < npage) :
    (A.pick s.calls s.free = none ∧ (getTable A f i true).run s = .ok none s.ask) ∨
      ∃ page ∈ s.free, A.pick s.calls s.free = some page ∧
        (getTable A f i true).run s = .ok (some page) (s.install f i page) := by
  cases hpick : A.pick s.calls s.free with
  | none =>
    refine .inl ⟨rfl, ?_⟩
    rw [getTable, get_bind_run, if_neg (isValid_eq_false_of_target ht), if_pos rfl]
    have hrun : (allocPage A).run s = .ok none s.ask := by
      rw [allocPage, get_bind_run, hpick]
      rfl
    rw [bind_of_ok hrun]
    rfl
  | some page =>
    have hpage := A.pick_mem hpick
    refine .inr ⟨page, hpage, rfl, ?_⟩
    rw [getTable, get_bind_run, if_neg (isValid_eq_false_of_target ht), if_pos rfl]
    have hrun : (allocPage A).run s = .ok (some page) (s.take page) := by
      rw [allocPage, get_bind_run, hpick]
      rfl
    rw [bind_of_ok hrun]
    have htarget : target ((s.install f i page).word f i) = some page := by
      rw [Mem.install_word_self, target_pteCreate (hfree page hpage) isType_table]
    exact bind_of_ok (frameOf_run htarget (hfree page hpage)) _

theorem getTable_serve_one {i : ℕ} (ht : target (s.word f i) = none)
    (hfree : ∀ page ∈ s.free, page < npage) :
    ∃ r t, (getTable A f i true).run s = .ok r t ∧
      serve A 1 s.calls s.free = r.map fun _ ↦ (t.calls, t.free) := by
  rcases getTable_serve (A := A) ht hfree with ⟨hpick, hget⟩ | ⟨page, -, hpick, hget⟩
  · refine ⟨none, _, hget, ?_⟩
    rw [serve, hpick]
    rfl
  · refine ⟨some page, _, hget, ?_⟩
    rw [serve, hpick]
    rfl

/-- What `get_pte` asks the allocator for. -/
theorem getPte_serve (h : Tables s kind) (hd : kind d = .dir) (hla : la < userTop)
    {r : Option (ℕ × ℕ)} (hrun : (getPte A d la true).run s = .ok r s') :
    serve A (missing s d (la / pgSize)) s.calls s.free = r.map fun _ ↦ (s'.calls, s'.free) := by
  have hn := page_lt hla
  rw [getPte, pdx1_eq hla, pdx0_eq] at hrun
  rw [missing]
  -- neither table is made, or only the page table, or both
  cases h0 : s.table0 d (la / pgSize / 512 / 512) with
  | some f0 =>
    have hkind := h.kind_table0 hd (by omega) h0
    rw [bind_of_ok (getTable_present h0 (h.lt f0 (by rw [hkind]; rintro ⟨⟩)))] at hrun
    simp only at hrun
    cases h1 : target (s.word f0 (la / pgSize / 512 % 512)) with
    | some f =>
      have htable : s.table d (la / pgSize / 512) = some f := Mem.table_eq_some.mpr ⟨f0, h0, h1⟩
      have hkind' := h.kind_table hd (by omega) htable
      rw [bind_of_ok (getTable_present h1 (h.lt f (by rw [hkind']; rintro ⟨⟩)))] at hrun
      cases hrun
      rw [htable, Option.isSome_some, if_pos rfl]
      rfl
    | none =>
      have htable : s.table d (la / pgSize / 512) = none := by
        rw [Mem.table, h0, Option.bind_some, h1]
      rw [htable, Option.isSome_none, if_neg Bool.false_ne_true, Option.isSome_some, if_pos rfl]
      obtain ⟨r₁, t, hget, hserve⟩ := getTable_serve_one (A := A) h1 h.free_lt
      rw [bind_of_ok hget] at hrun
      cases r₁ with
      | none =>
        cases hrun
        exact hserve
      | some page =>
        cases hrun
        exact hserve
  | none =>
    have htable : s.table d (la / pgSize / 512) = none := by
      rw [Mem.table, h0, Option.bind_none]
    rw [htable, Option.isSome_none, if_neg Bool.false_ne_true, if_neg Bool.false_ne_true]
    rcases getTable_serve (A := A) h0 h.free_lt with ⟨hpick, hget⟩ | ⟨page, hpage, hpick, hget⟩
    · rw [bind_of_ok hget] at hrun
      cases hrun
      rw [serve, hpick]
      rfl
    · rw [bind_of_ok hget] at hrun
      have hne : page ≠ d := Tables.ne_of_kind ((h.free page).mpr hpage) hd (by rintro ⟨⟩)
      have hzero : target ((s.install d (la / pgSize / 512 / 512) page).word page
          (la / pgSize / 512 % 512)) = none := by
        rw [Mem.install_word_page _ hne, target_zero]
      have hfree : ∀ x ∈ (s.install d (la / pgSize / 512 / 512) page).free, x < npage :=
        fun x hx ↦ h.free_lt x (Finset.mem_of_mem_erase hx)
      rw [serve, hpick]
      obtain ⟨r₁, t, hget', hserve⟩ := getTable_serve_one (A := A) hzero hfree
      simp only at hrun
      rw [bind_of_ok hget'] at hrun
      cases r₁ with
      | none =>
        cases hrun
        exact hserve
      | some page =>
        cases hrun
        exact hserve

/-! ## The entry is filled -/

/-- A page of data gets its entry in a page table that is there. -/
theorem pageInsert_present (h : PageOk s kind dirs) (hd : d ∈ dirs) (hla : la < userTop)
    (htable : s.table d (la / pgSize / 512) = some f) (hpage : kind page = .data)
    (hlt : page < npage)
    (hperm : IsType perm) : ∃ s' kind', (pageInsert A d page la perm).run s = .ok () s' ∧
      Inserted d (la / pgSize) (pteCreate page (pteV ||| perm)) dirs s kind s' kind' := by
  have hn := page_lt hla
  have hf := h.tables.kind_table (h.kind_dir hd) (by omega) htable
  obtain ⟨s', kind', hrun, hins⟩ := insertAt_run h hf hpage hlt hperm
  refine ⟨s', kind', ?_, hins⟩
  rw [pageInsert, bind_of_ok (getPte_present h.tables (h.kind_dir hd) hla htable)]
  exact hrun

theorem allocPage_pick (A : PageSource) (s : Mem) :
    (A.pick s.calls s.free = none ∧ (allocPage A).run s = .ok none s.ask) ∨
      ∃ page ∈ s.free, A.pick s.calls s.free = some page ∧
        (allocPage A).run s = .ok (some page) (s.take page) := by
  rw [allocPage, get_bind_run]
  cases hpick : A.pick s.calls s.free with
  | none => exact .inl ⟨rfl, rfl⟩
  | some page => exact .inr ⟨page, A.pick_mem hpick, rfl, rfl⟩

theorem pgdirAllocPage_present (h : PageOk s kind dirs) (hd : d ∈ dirs) (hla : la < userTop)
    (htable : s.table d (la / pgSize / 512) = some f) (hperm : IsType perm) :
    (A.pick s.calls s.free = none ∧ (pgdirAllocPage A d la perm).run s = .ok none s.ask) ∨
      ∃ page s', A.pick s.calls s.free = some page ∧
        (pgdirAllocPage A d la perm).run s = .ok (some page) s' ∧
        s'.pte d (la / pgSize) = pteCreate page (pteV ||| perm) := by
  rcases allocPage_pick A s with ⟨hpick, hrun⟩ | ⟨page, hfree, hpick, hrun⟩
  · refine .inl ⟨hpick, ?_⟩
    rw [pgdirAllocPage, bind_of_ok hrun]
    rfl
  · have hpage := (h.tables.free page).mpr hfree
    obtain ⟨hok, -⟩ := h.take hpage
    have htable' : (s.take page).table d (la / pgSize / 512) = some f := htable
    obtain ⟨s', kind', hins, hinserted⟩ := pageInsert_present (A := A) hok hd hla htable'
      (Function.update_self page FrameKind.data kind) (h.tables.lt_of_free hpage) hperm
    refine .inr ⟨page, s', hpick, ?_, hinserted.here⟩
    rw [pgdirAllocPage, bind_of_ok hrun]
    simp only
    rw [bind_of_ok (attempt_of_ok hins)]
    rfl

/-- `swap_in` and `page_insert`, with the entry in a page table that is there. -/
theorem swapIn_present (h : PageOk s kind dirs) (hd : d ∈ dirs) (hla : la < userTop)
    (htable : s.table d (la / pgSize / 512) = some f) (hperm : IsType perm) :
    ((A.pick s.calls s.free = none ∨ swapfsRead (s.pte d (la / pgSize)) = none) ∧
        (swapIn A swapfsRead d la).run s = .panic) ∨
      (¬(A.pick s.calls s.free = none ∨ swapfsRead (s.pte d (la / pgSize)) = none) ∧
        ∃ page s₁ s', (swapIn A swapfsRead d la).run s = .ok page s₁ ∧
          (pageInsert A d page la perm).run s₁ = .ok () s' ∧
          s'.pte d (la / pgSize) = pteCreate page (pteV ||| perm)) := by
  have hpte := Mem.pte_of_table htable
  rcases allocPage_pick A s with ⟨hpick, hrun⟩ | ⟨page, hfree, hpick, hrun⟩
  · refine .inl ⟨.inl hpick, ?_⟩
    rw [swapIn, bind_of_ok hrun]
    rfl
  have hpage := (h.tables.free page).mpr hfree
  obtain ⟨hok, -⟩ := h.take hpage
  have htable' : (s.take page).table d (la / pgSize / 512) = some f := htable
  have hget : (getPte A d la false).run (s.take page) =
      .ok (some (f, la / pgSize % 512)) (s.take page) :=
    getPte_present hok.tables (hok.kind_dir hd) hla htable'
  rw [swapIn, bind_of_ok hrun]
  simp only
  rw [bind_of_ok hget]
  simp only
  rw [get_bind_run, Mem.take_word, ← hpte]
  cases hread : swapfsRead (s.pte d (la / pgSize)) with
  | none => exact .inl ⟨.inr rfl, rfl⟩
  | some content =>
    have hself : Function.update kind page FrameKind.data page = .data := Function.update_self _ _ _
    have hword : ∀ y, Function.update kind page FrameKind.data y ≠ .data →
        ((s.take page).setPage page content).word y = (s.take page).word y := by
      intro y hy
      have hne : y ≠ page := by
        rintro rfl
        exact hy hself
      exact Function.update_of_ne hne _ _
    have hok' : PageOk ((s.take page).setPage page content) _ dirs :=
      (hok.of_word_data hword rfl rfl).1
    have hr : la / pgSize / 512 < 1024 := by
      have hn := page_lt hla
      omega
    have htable₁ : ((s.take page).setPage page content).table d (la / pgSize / 512) = some f :=
      (hok'.tables.table_iff (hok'.kind_dir hd) hr).mpr
        (hok.tables.kind_table (hok.kind_dir hd) hr htable')
    obtain ⟨s', kind', hins, hinserted⟩ := pageInsert_present (A := A) hok' hd hla htable₁ hself
      (h.tables.lt_of_free hpage) hperm
    refine .inr ⟨?_, page, _, s', rfl, hins, hinserted.here⟩
    rw [hpick]
    rintro (hcon | hcon)
    · cases hcon
    · cases hcon

theorem roundDown_div (addr : ℕ) : roundDown addr / pgSize = addr / pgSize := by
  rw [roundDown, pgSize]
  omega

/-- An entry in use is in a page table that is there. -/
theorem table_of_pte (h : s.pte d n ≠ 0) : ∃ f, s.table d (n / 512) = some f := by
  rw [← Option.isSome_iff_exists, ← Option.ne_none_iff_isSome]
  exact fun hnone ↦ h (Mem.pte_of_no_table hnone)

/-- An entry of zero gets a page, after the tables on the way to it. -/
theorem faultIn_missing (h : PageOk s kind dirs) (hd : d ∈ dirs) {v : Vma} {addr : ℕ}
    (hv : v.vmStart ≤ addr) (hround : la = roundDown addr) (htop : la < userTop)
    (hpte : s.pte d (la / pgSize) = 0) :
    (serve A (missing s d (la / pgSize) + 1) s.calls s.free = none ∧ ∃ t,
        (faultIn A swapInitOk swapfsRead v d addr).run s = .ok (some .noMem) t ∧
        ∀ e ∈ dirs, ∀ m < 524288, t.pte e m = s.pte e m) ∨
      (serve A (missing s d (la / pgSize) + 1) s.calls s.free ≠ none ∧ ∃ page t,
        (faultIn A swapInitOk swapfsRead v d addr).run s = .ok none t ∧
        t.pte d (la / pgSize) = pteCreate page (pteV ||| faultPerm v.vmFlags)) := by
  have hn := page_lt htop
  rw [faultIn, if_neg (not_lt.mpr hv), ← hround]
  obtain ⟨s₁, kind₁, hgrow, hget | ⟨f, hf, hget⟩⟩ :=
    getPte_create (A := A) h.tables (h.kind_dir hd) htop
  · refine .inl ⟨?_, s₁, ?_, fun e he m hm ↦ hgrow.pte h.tables (h.kind_dir he) hm⟩
    · rw [serve_add, getPte_serve h.tables (h.kind_dir hd) htop hget]
      rfl
    · rw [bind_of_ok hget]
      rfl
  · have hok₁ := h.grow hgrow fun _ ↦ PageOk.onPath_ne
    have htable₁ := (hok₁.tables.table_iff (hok₁.kind_dir hd) (by omega)).mpr hf
    have hzero : s₁.word f (la / pgSize % 512) = 0 := by
      rw [← Mem.pte_of_table htable₁, hgrow.pte h.tables (h.kind_dir hd) hn, hpte]
    -- what is left of the requests when the tables are there
    have hserve : serve A (missing s d (la / pgSize) + 1) s.calls s.free =
        serve A 1 s₁.calls s₁.free := by
      rw [serve_add, getPte_serve h.tables (h.kind_dir hd) htop hget]
      rfl
    rw [bind_of_ok hget]
    simp only
    rw [fillEntry, get_bind_run, if_pos hzero, hserve]
    rcases pgdirAllocPage_present (A := A) hok₁ hd htop htable₁ (isType_faultPerm v.vmFlags) with
      ⟨hpick, hrun⟩ | ⟨page, t, hpick, hrun, hhere⟩
    · refine .inl ⟨serve_one_eq_none.mpr hpick, s₁.ask, ?_, ?_⟩
      · rw [bind_of_ok hrun]
        rfl
      · intro e he m hm
        rw [← hgrow.pte h.tables (h.kind_dir he) hm]
        exact Mem.pte_eq_of_word_eq rfl e m
    · refine .inr ⟨fun hcon ↦ ?_, page, t, ?_, hhere⟩
      · have hnone := serve_one_eq_none.mp hcon
        rw [hpick] at hnone
        cases hnone
      · rw [bind_of_ok hrun]
        rfl

/-- Any other entry is taken for a place in the swap area. -/
theorem faultIn_swapped (h : PageOk s kind dirs) (hd : d ∈ dirs) {v : Vma} {addr : ℕ}
    (hv : v.vmStart ≤ addr) (hround : la = roundDown addr) (htop : la < userTop)
    (hpte : s.pte d (la / pgSize) ≠ 0) :
    (faultIn A false swapfsRead v d addr).run s = .ok (some .noMem) s ∧
      (((A.pick s.calls s.free = none ∨ swapfsRead (s.pte d (la / pgSize)) = none) ∧
          (faultIn A true swapfsRead v d addr).run s = .panic) ∨
        (¬(A.pick s.calls s.free = none ∨ swapfsRead (s.pte d (la / pgSize)) = none) ∧
          ∃ page t, (faultIn A true swapfsRead v d addr).run s = .ok none t ∧
          t.pte d (la / pgSize) = pteCreate page (pteV ||| faultPerm v.vmFlags))) := by
  obtain ⟨f, htable⟩ := table_of_pte hpte
  have hword : s.word f (la / pgSize % 512) ≠ 0 := by
    rw [← Mem.pte_of_table htable]
    exact hpte
  have hget : (getPte A d la true).run s = .ok (some (f, la / pgSize % 512)) s :=
    getPte_present h.tables (h.kind_dir hd) htop htable
  rw [faultIn, faultIn, if_neg (not_lt.mpr hv), if_neg (not_lt.mpr hv), ← hround, bind_of_ok hget,
    bind_of_ok hget]
  simp only
  rw [fillEntry, fillEntry, get_bind_run, get_bind_run, if_neg hword, if_neg hword, if_pos rfl]
  refine ⟨rfl, ?_⟩
  rcases @swapIn_present A swapfsRead s kind dirs d f la (faultPerm v.vmFlags) h hd htop htable
    (isType_faultPerm v.vmFlags) with ⟨hstop, hrun⟩ | ⟨hgo, page, s₁, t, hrun, hins, hhere⟩
  · exact .inl ⟨hstop, bind_of_panic hrun _⟩
  · refine .inr ⟨hgo, page, t, ?_, hhere⟩
    rw [bind_of_ok hrun, bind_of_ok (attempt_of_ok hins)]
    rfl

/-- The three ways in which the handler ends when an area holds the address. -/
theorem faultIn_run (h : PageOk s kind dirs) (hd : d ∈ dirs) {v : Vma} {addr : ℕ}
    (hv : v.vmStart ≤ addr) (hla : addr < userTop) :
    (Denied A swapInitOk s d (addr / pgSize) ∧ ∃ t,
        (faultIn A swapInitOk swapfsRead v d addr).run s = .ok (some .noMem) t ∧
        ∀ e ∈ dirs, ∀ m < 524288, t.pte e m = s.pte e m) ∨
      (¬Denied A swapInitOk s d (addr / pgSize) ∧
        Stopped A swapInitOk swapfsRead s d (addr / pgSize) ∧
        (faultIn A swapInitOk swapfsRead v d addr).run s = .panic) ∨
      (¬Denied A swapInitOk s d (addr / pgSize) ∧
        ¬Stopped A swapInitOk swapfsRead s d (addr / pgSize) ∧ ∃ page t,
        (faultIn A swapInitOk swapfsRead v d addr).run s = .ok none t ∧
        t.pte d (addr / pgSize) = pteCreate page (pteV ||| faultPerm v.vmFlags)) := by
  -- the address stays a variable, so that it is not computed with
  obtain ⟨la, hround⟩ : ∃ la, la = roundDown addr := ⟨_, rfl⟩
  have hpage : addr / pgSize = la / pgSize := by rw [hround, roundDown_div]
  have htop : la < userTop := by
    rw [hround, roundDown]
    omega
  rw [hpage]
  by_cases hpte : s.pte d (la / pgSize) = 0
  · have hstopped : ¬Stopped A swapInitOk swapfsRead s d (la / pgSize) := fun hcon ↦ hcon.1 hpte
    rcases faultIn_missing h hd hv hround htop hpte with ⟨hnone, t, hrun⟩ | ⟨hsome, page, t, hrun⟩
    · exact .inl ⟨.inl ⟨hpte, hnone⟩, t, hrun⟩
    · refine .inr (.inr ⟨?_, hstopped, page, t, hrun⟩)
      rintro (hcon | hcon)
      · exact hsome hcon.2
      · exact hcon.1 hpte
  · obtain ⟨hoff, hon⟩ :=
      @faultIn_swapped A swapfsRead s kind dirs d la h hd v addr hv hround htop hpte
    cases swapInitOk with
    | false => exact .inl ⟨.inr ⟨hpte, rfl⟩, s, hoff, fun _ _ _ _ ↦ rfl⟩
    | true =>
      have hdenied : ¬Denied A true s d (la / pgSize) := by
        rintro (hcon | hcon)
        · exact hpte hcon.1
        · exact Bool.false_ne_true hcon.2.symm
      rcases hon with ⟨hstop, hrun⟩ | ⟨hgo, page, t, hrun⟩
      · exact .inr (.inl ⟨hdenied, ⟨hpte, rfl, hstop⟩, hrun⟩)
      · exact .inr (.inr ⟨hdenied, fun hcon ↦ hgo hcon.2.2, page, t, hrun⟩)

/-! ## What the handler grants -/

section Outcomes

variable {swapInitOk : Bool} {mm mm' : Mm} {v : Vma} {addr : ℕ} {access : AccessKind} {t : Mem}

theorem faultCond_iff (hfound : (findVma mm addr).1 = some v) :
    FaultCond A swapInitOk swapfsRead s mm addr access ↔
      ((v.Permits .read ∧ v.Permits .write ∧ ¬v.Permits .exec) ∧ access ≠ .exec) ∨
        Denied A swapInitOk s mm.pgdir (addr / pgSize) ∨
        (Stopped A swapInitOk swapfsRead s mm.pgdir (addr / pgSize) ∧ v.Permits access) := by
  constructor
  · exact fun hcond ↦ hcond v hfound
  · intro hcond w hw
    rw [hfound] at hw
    cases hw
    exact hcond

/-- An area to read and to write permits every access but to execute. -/
theorem Vma.permits_of_rights
    (h : (v.Permits .read ∧ v.Permits .write ∧ ¬v.Permits .exec) ∧ access ≠ .exec) :
    v.Permits access := by
  obtain ⟨⟨hread, hwrite, -⟩, hne⟩ := h
  cases access with
  | read => exact hread
  | write => exact hwrite
  | exec => exact absurd rfl hne

/-- An error is right for every access. -/
theorem faultExact_of_error {e : Errno} (hsame : ∀ d ∈ dirs, ∀ n < 524288, t.pte d n = s.pte d n) :
    FaultExact s dirs mm addr access (.ok (some e, mm') t) where
  granted mm' t' hok := by cases hok
  refused _ := ⟨e, mm', t, rfl, hsame⟩

/-- To stop is right when the access is permitted. -/
theorem faultExact_panic_iff (hfound : (findVma mm addr).1 = some v) :
    FaultExact s dirs mm addr access .panic ↔ v.Permits access := by
  constructor
  · intro hexact
    by_contra hforbidden
    obtain ⟨e, mm', t, hcon, -⟩ := hexact.refused fun w hw ↦ by
      rw [hfound] at hw
      cases hw
      exact hforbidden
    cases hcon
  · intro haccess
    refine ⟨fun mm' t hcon ↦ ?_, fun hforbidden ↦ absurd haccess (hforbidden v hfound)⟩
    cases hcon

/-- The entry that the handler makes is right for an area to read and to write only. -/
theorem faultExact_ok_iff (hfound : (findVma mm addr).1 = some v)
    (hhere : t.pte mm.pgdir (addr / pgSize) = pteCreate page (pteV ||| faultPerm v.vmFlags)) :
    FaultExact s dirs mm addr access (.ok (none, mm') t) ↔
      (v.Permits .read ∧ v.Permits .write ∧ ¬v.Permits .exec) ∧ access ≠ .exec := by
  constructor
  · intro hexact
    obtain ⟨w, hw, hleaf, hrights, haccess⟩ := hexact.granted _ t rfl
    rw [hfound] at hw
    cases hw
    rw [hhere] at hleaf hrights haccess
    have hwrite : v.vmFlags &&& vmWrite ≠ 0 := by
      by_contra hcon
      exact faultPerm_not_leaf (not_not.mpr hcon) page hleaf
    obtain ⟨-, hbits⟩ := faultPerm_write hwrite page
    refine ⟨⟨?_, hwrite, ?_⟩, (hbits access).mp haccess⟩
    · exact (hrights .read).mp ((hbits .read).mpr (by decide))
    · exact fun hexec ↦ (hbits .exec).mp ((hrights .exec).mpr hexec) rfl
  · intro hrights
    obtain ⟨hleaf, hbits⟩ := faultPerm_write hrights.1.2.1 page
    constructor
    · intro mm' t' hok
      cases hok
      refine ⟨v, hfound, ?_⟩
      rw [hhere]
      refine ⟨hleaf, fun a ↦ (hbits a).trans ?_, (hbits access).mpr hrights.2⟩
      cases a with
      | read => exact iff_of_true (by decide) hrights.1.1
      | write => exact iff_of_true (by decide) hrights.1.2.1
      | exec => exact iff_of_false (by decide) hrights.1.2.2
    · exact fun hforbidden ↦ absurd (Vma.permits_of_rights hrights) (hforbidden v hfound)

end Outcomes

/-- An `mm_struct` with one area. -/
def areaMm (vmFlags : BitVec 32) : Mm :=
  ⟨⟨0, [⟨1, 0x400000, 0x402000, vmFlags⟩], 0x80400, 0⟩, none, 1⟩

theorem areaMm_wf (vmFlags : BitVec 32) : (areaMm vmFlags).Wf := by
  refine ⟨⟨?_, List.pairwise_singleton _ _⟩, rfl, fun v hv ↦ by cases hv⟩
  intro v hv
  rw [List.mem_singleton.mp hv]
  exact (by decide : (0x400000 : ℕ) < 0x402000)

theorem areaMm_user (vmFlags : BitVec 32) : ∀ v ∈ (areaMm vmFlags).mmapList, v.vmEnd ≤ userTop := by
  intro v hv
  rw [List.mem_singleton.mp hv]
  exact (by decide : (0x402000 : ℕ) ≤ userTop)

/-- Whether 0 was returned with an entry that is valid and has no rights. -/
def noRights (d n : ℕ) : Outcome Errno Mem (Option Errno × Mm) → Bool
  | .ok (none, _) t => isValid (t.pte d n) && t.pte d n &&& (pteR ||| pteW ||| pteX) = 0
  | _ => false

/-- A directory has been set up; a read from a read-only area of it faults. -/
theorem readOnly_follow : ∃ (st : PageState) (kind : ℕ → FrameKind),
    PageRun lowestPage (fun _ ↦ 0) (PageState.init (fun _ _ ↦ 0) (Finset.Icc 0x80400 0x80408)) st ∧
      PageOk st.mem kind st.dirs ∧ 0x80400 ∈ st.dirs ∧
      noRights 0x80400 0x400 ((doPgfault lowestPage false (fun _ ↦ none) (areaMm vmRead) 13
        0x400010).run st.mem) = true := by
  have hcheck : ((PageState.follow lowestPage (fun _ ↦ 0) [.setupPgdir]
      (PageState.init (fun _ _ ↦ 0) (Finset.Icc 0x80400 0x80408))).map fun st ↦
        decide (0x80400 ∈ st.dirs) && noRights 0x80400 0x400
          ((doPgfault lowestPage false (fun _ ↦ none) (areaMm vmRead) 13 0x400010).run st.mem)) =
      some true := by decide +kernel
  obtain ⟨st, hfollow, hst⟩ := Option.map_eq_some_iff.mp hcheck
  obtain ⟨hdec, hrights⟩ := Bool.and_eq_true_iff.mp hst
  have hrun := PageState.run_of_follow .start hfollow
  obtain ⟨kind, hok⟩ := hrun.ok (by decide) fun _ _ ↦ rfl
  exact ⟨st, kind, hrun, hok.page, of_decide_eq_true hdec, hrights⟩

end Run

end Ucore.AddrSpace
