import Ucore.Lib.CString
import Ucore.Mm.Vma

/-!
# Strings from user memory

`copy_string` scans a string of a program page by page: the rest of the page of `src` first, then
whole pages, each cut off at the number of bytes that are left. It checks each part with
`user_mem_check` before it looks at it. With areas that begin and end on pages a part is allowed as
a whole or not at all, since it does not cross a page, so the scan decides the same as a check of
each byte of the string.
-/

namespace Ucore.AddrSpace

open Bytes

/-- What `copy_string` does with memory: a check with its answer, bytes of the program read, bytes
of the destination written. -/
inductive Access
  | check (addr len : ℕ) (ok : Bool)
  | read (addr len : ℕ)
  | write (off len : ℕ)

/-- What is left after `copy_string`: its answer, the destination, the address space, and all it did
with memory, in order. -/
structure CopyRun where
  ret : Bool
  dst : Bytes
  mm : Option Mm
  log : List Access

/-- The same with something done before. -/
def CopyRun.after (pre : List Access) (r : CopyRun) : CopyRun := { r with log := pre ++ r.log }

@[simp] theorem CopyRun.after_ret (pre : List Access) (r : CopyRun) : (r.after pre).ret = r.ret :=
  rfl

@[simp] theorem CopyRun.after_dst (pre : List Access) (r : CopyRun) : (r.after pre).dst = r.dst :=
  rfl

@[simp] theorem CopyRun.after_mm (pre : List Access) (r : CopyRun) : (r.after pre).mm = r.mm := rfl

@[simp] theorem CopyRun.after_log (pre : List Access) (r : CopyRun) :
    (r.after pre).log = pre ++ r.log := rfl

section Copy

variable (user : Bytes)

/-- The loop of `copy_string`, which has stored `off` bytes at `dst`; there is no answer when it is
not through after `fuel` rounds. -/
def copyStringLoop : ℕ → Option Mm → Bytes → ℕ → ℕ → ℕ → ℕ → Option CopyRun
  | 0, _, _, _, _, _, _ => none
  | fuel + 1, mm, dst, off, src, maxn, part =>
    let part := if part > maxn then maxn else part
    match userMemCheck fuel mm src part false with
    | none => none
    | some (ok, mm) =>
      if ok = false then
        some ⟨false, dst, mm, [.check src part ok]⟩
      else
        let alen := strnlen user src part
        -- `strnlen` looks at the zero too when there is one
        let scan := [.check src part ok, .read src (min (alen + 1) part)]
        if alen < part then
          some ⟨true, memcpy dst off user src (alen + 1), mm,
            scan ++ [.read src (alen + 1), .write off (alen + 1)]⟩
        else if part = maxn then
          some ⟨false, dst, mm, scan⟩
        else
          (copyStringLoop fuel mm (memcpy dst off user src part) (off + part)
            ((src + part) % wordSize) (maxn - part) pgSize).map
              (CopyRun.after (scan ++ [.read src part, .write off part]))

def copyString (fuel : ℕ) (mm : Option Mm) (dst : Bytes) (src maxn : ℕ) : Option CopyRun :=
  copyStringLoop user fuel mm dst 0 src maxn
    ((roundDown ((src + pgSize) % wordSize) + wordSize - src) % wordSize)

end Copy

/-! ## What is allowed -/

/-- The byte at `b` passes `user_mem_check` for reading. -/
def Mm.Passes (mm : Mm) (b : ℕ) : Prop :=
  ∃ mm', userMemCheck 2 (some mm) b 1 false = some (true, mm')

/-- The areas begin and end on pages. -/
def Mm.Aligned (mm : Mm) : Prop := ∀ v ∈ mm.mmapList, pgSize ∣ v.vmStart ∧ pgSize ∣ v.vmEnd

section Passes

variable {mm mm' : Mm} {b src part fuel : ℕ} {r : Bool}

theorem Mm.Allows.congr {write : Bool} (heq : mm'.toMmStruct = mm.toMmStruct) :
    mm'.Allows write b ↔ mm.Allows write b := by
  rw [Mm.Allows, Mm.Allows, heq]

theorem userMemLoop_wf {write : Bool} {stop start : ℕ} (h : mm.Wf)
    (hrun : userMemLoop write stop fuel start mm = some (r, mm')) : mm'.Wf := by
  induction fuel generalizing start mm with
  | zero => exact absurd hrun (Option.some_ne_none _).symm
  | succ fuel ih =>
    have hwf := findVma_wf h start
    rw [userMemLoop] at hrun
    split at hrun
    · generalize findVma mm start = q at hwf hrun
      obtain ⟨v, mm₁⟩ := q
      cases v with
      | none =>
        simp only [Option.some.injEq, Prod.mk.injEq] at hrun
        exact hrun.2 ▸ hwf
      | some v =>
        dsimp only at hrun
        split_ifs at hrun
        · simp only [Option.some.injEq, Prod.mk.injEq] at hrun
          exact hrun.2 ▸ hwf
        · simp only [Option.some.injEq, Prod.mk.injEq] at hrun
          exact hrun.2 ▸ hwf
        · exact ih hwf hrun
    · simp only [Option.some.injEq, Prod.mk.injEq] at hrun
      exact hrun.2 ▸ h

theorem userMemCheck_wf {write : Bool} {len : ℕ} (h : mm.Wf)
    (hrun : userMemCheck fuel (some mm) src len write = some (r, some mm')) : mm'.Wf := by
  rw [userMemCheck] at hrun
  split_ifs at hrun
  · obtain ⟨q, hq, heq⟩ := Option.map_eq_some_iff.mp hrun
    simp only [Prod.mk.injEq, Option.some.injEq] at heq
    obtain ⟨q₁, q₂⟩ := q
    exact heq.2 ▸ userMemLoop_wf h hq
  · simp only [Option.some.injEq, Prod.mk.injEq] at hrun
    exact hrun.2 ▸ h

theorem Mm.passes_iff (h : mm.Wf) (b : ℕ) :
    mm.Passes b ↔ userBase ≤ b ∧ b < userTop ∧ mm.Allows false b := by
  have hone : (1 : ℕ) < wordSize := by decide
  rw [Mm.Passes]
  by_cases hb : b < wordSize
  · obtain ⟨r, mm', hrun, -, hiff⟩ := userMemCheck_iff h hb hone false Nat.one_lt_two
    rw [hrun]
    constructor
    · rintro ⟨mm₁, heq⟩
      simp only [Option.some.injEq, Prod.mk.injEq] at heq
      obtain ⟨-, -, hbase, htop, hall⟩ := hiff.mp heq.1
      exact ⟨hbase, htop, hall b le_rfl (Nat.lt_succ_self b)⟩
    · rintro ⟨hbase, htop, hall⟩
      have hword : b + 1 < wordSize := lt_of_le_of_lt htop (by decide)
      refine ⟨some mm', ?_⟩
      rw [hiff.mpr ⟨Nat.one_pos, hword, hbase, htop, fun c hc hc' ↦ ?_⟩]
      rwa [Nat.le_antisymm (Nat.lt_succ_iff.mp hc') hc]
  · -- an address that is no word is above the user's memory, and the check fails as its end wraps
    have htop : userTop ≤ b := le_trans (by decide) (not_lt.mp hb)
    constructor
    · rintro ⟨mm₁, heq⟩
      have hmod : (b + 1) % wordSize < wordSize := Nat.mod_lt _ (by decide)
      rw [userMemCheck, if_neg fun hacc ↦ hb (hacc.2.1.trans hmod)] at heq
      simp at heq
    · rintro ⟨-, hlt, -⟩
      exact absurd hlt htop.not_gt

/-- Bytes of one page are in the same area. -/
theorem Mm.Aligned.allows_page (hal : mm.Aligned) {b c : ℕ} {write : Bool}
    (hpage : b / pgSize = c / pgSize) (hb : mm.Allows write b) (hw : write = false) :
    mm.Allows write c := by
  obtain ⟨v, hv, ⟨hlo, hhi⟩, hflag, -⟩ := hb
  obtain ⟨⟨m, hm⟩, ⟨n, hn⟩⟩ := hal v hv
  have hpos : 0 < pgSize := by decide
  refine ⟨v, hv, ⟨?_, ?_⟩, hflag, fun hc ↦ absurd (hw ▸ hc) Bool.false_ne_true⟩
  · rw [hm] at hlo ⊢
    rw [Nat.mul_comm] at hlo ⊢
    rw [← Nat.le_div_iff_mul_le hpos] at hlo ⊢
    exact hpage ▸ hlo
  · rw [hn] at hhi ⊢
    rw [Nat.mul_comm] at hhi ⊢
    rw [← Nat.div_lt_iff_lt_mul hpos] at hhi ⊢
    exact hpage ▸ hhi

theorem Mm.Aligned.passes_page (hal : mm.Aligned) (h : mm.Wf) {b c : ℕ}
    (hpage : b / pgSize = c / pgSize) (hb : mm.Passes b) : mm.Passes c := by
  rw [Mm.passes_iff h] at hb ⊢
  obtain ⟨hbase, htop, hall⟩ := hb
  refine ⟨?_, ?_, hal.allows_page hpage hall rfl⟩
  · rw [userBase, pgSize] at *
    omega
  · rw [userTop, pgSize] at *
    omega

/-- A part of a page is checked as its first byte is. -/
theorem userMemCheck_page (h : mm.Wf) (hal : mm.Aligned) (hsrc : src < wordSize)
    (hpage : part ≤ pgSize - src % pgSize) (hfuel : part < fuel) :
    ∃ r mm', userMemCheck fuel (some mm) src part false = some (r, some mm') ∧
      mm'.toMmStruct = mm.toMmStruct ∧ mm'.Wf ∧ (r = true ↔ 0 < part ∧ mm.Passes src) := by
  have hle : part ≤ 4096 := hpage.trans (Nat.sub_le _ _)
  obtain ⟨r, mm', hrun, hmm', hiff⟩ :=
    userMemCheck_iff h hsrc (hle.trans_lt (by decide)) false hfuel
  refine ⟨r, mm', hrun, hmm', userMemCheck_wf h hrun, hiff.trans ?_⟩
  constructor
  · rintro ⟨hpos, -, hbase, htop, hall⟩
    refine ⟨hpos, (Mm.passes_iff h src).mpr ⟨hbase, ?_, hall src le_rfl ?_⟩⟩
    · omega
    · omega
  · rintro ⟨hpos, hpass⟩
    have hin : ∀ c, src ≤ c → c < src + part → mm.Passes c := by
      intro c hc hc'
      apply hal.passes_page h _ hpass
      rw [pgSize] at *
      omega
    have hlast := (Mm.passes_iff h _).mp (hin (src + part - 1) (by omega) (by omega))
    refine ⟨hpos, ?_, ((Mm.passes_iff h src).mp hpass).1, ?_, fun c hc hc' ↦ ?_⟩
    · have := hlast.2.1
      rw [userTop] at this
      rw [wordSize]
      omega
    · have := hlast.2.1
      omega
    · exact ((Mm.passes_iff h c).mp (hin c hc hc')).2.2

end Passes

/-! ## What is looked at -/

/-- Each byte that is read is in `seen` or was allowed by a check before. -/
def Guarded : Set ℕ → List Access → Prop
  | _, [] => True
  | seen, .check addr len ok :: l =>
    Guarded (seen ∪ {b | ok = true ∧ addr ≤ b ∧ b < addr + len}) l
  | seen, .read addr len :: l => (∀ b, addr ≤ b → b < addr + len → b ∈ seen) ∧ Guarded seen l
  | seen, .write _ _ :: l => Guarded seen l

/-- Each write stays between `lo` and `hi`. -/
def WritesIn (lo hi : ℕ) (l : List Access) : Prop :=
  ∀ off len, .write off len ∈ l → lo ≤ off ∧ off + len ≤ hi

theorem Guarded.mono {l : List Access} {s t : Set ℕ} (h : Guarded s l) (hst : s ⊆ t) :
    Guarded t l := by
  induction l generalizing s t with
  | nil => trivial
  | cons a l ih =>
    cases a with
    | check addr len ok => exact ih h (Set.union_subset_union_left _ hst)
    | read addr len => exact ⟨fun b hb hb' ↦ hst (h.1 b hb hb'), ih h.2 hst⟩
    | write off len => exact ih h hst

theorem Guarded.append {l l' : List Access} {s : Set ℕ} (h : Guarded s l) (h' : Guarded ∅ l') :
    Guarded s (l ++ l') := by
  induction l generalizing s with
  | nil => exact h'.mono (Set.empty_subset s)
  | cons a l ih =>
    cases a with
    | check addr len ok => exact ih h
    | read addr len => exact ⟨h.1, ih h.2⟩
    | write off len => exact ih h

/-- A check that succeeds, and reads of what it allowed. -/
theorem guarded_scan {src part m : ℕ} {l : List Access} (hm : m ≤ part)
    (hl : Guarded {b | src ≤ b ∧ b < src + part} l) :
    Guarded ∅ (.check src part true :: .read src m :: l) := by
  refine ⟨fun b hb hb' ↦ .inr ⟨rfl, hb, by omega⟩, hl.mono fun b hb ↦ .inr ⟨rfl, hb⟩⟩

/-! ## The scan -/

/-- `copy_string` from `src` with room for `maxn` bytes at offset `off` of `dst`. -/
structure CopyExact (user : Bytes) (mm : Mm) (dst : Bytes) (off src maxn : ℕ) (run : CopyRun) :
    Prop where
  /-- It succeeds when the string ends in time and each byte of it passes the check. -/
  ret_iff : run.ret = true ↔ ∃ k < maxn, user.EndsAt src k ∧ ∀ i ≤ k, mm.Passes (src + i)
  /-- Then the destination holds the string with its terminating zero. -/
  copied : run.ret = true → ∀ k, user.EndsAt src k → ∀ i ≤ k, run.dst (off + i) = user (src + i)
  /-- Nothing but the room that was given is changed. -/
  outside : ∀ i, i < off ∨ off + maxn ≤ i → run.dst i = dst i
  /-- Each byte of the program that is read was checked before. -/
  reads : Guarded ∅ run.log
  writes : WritesIn off (off + maxn) run.log

section Loop

variable {user dst : Bytes} {mm mm' : Mm} {off src maxn part alen fuel : ℕ} {run : CopyRun}

theorem Mm.Passes.congr (heq : mm'.toMmStruct = mm.toMmStruct) (h' : mm'.Wf) (h : mm.Wf) (b : ℕ) :
    mm'.Passes b ↔ mm.Passes b := by
  rw [Mm.passes_iff h', Mm.passes_iff h, Mm.Allows.congr heq]

/-- The first byte of a part that is allowed stands for all of it. -/
theorem Mm.Aligned.passes_part (hal : mm.Aligned) (h : mm.Wf)
    (hpage : part ≤ pgSize - src % pgSize) (hpass : mm.Passes src) {i : ℕ} (hi : i < part) :
    mm.Passes (src + i) := by
  apply hal.passes_page h _ hpass
  rw [pgSize] at *
  omega

/-- The part was refused. -/
theorem CopyExact.refused (hpart : maxn = 0 ∨ 0 < part)
    (hno : ¬(0 < part ∧ mm.Passes src)) (mm₁ : Option Mm) :
    CopyExact user mm dst off src maxn ⟨false, dst, mm₁, [.check src part false]⟩ where
  ret_iff := by
    refine ⟨fun hc ↦ absurd hc Bool.false_ne_true, ?_⟩
    rintro ⟨k, hk, -, hall⟩
    have hpos : 0 < part := hpart.resolve_left (Nat.ne_of_gt (Nat.zero_lt_of_lt hk))
    exact absurd ⟨hpos, hall 0 (Nat.zero_le k)⟩ hno
  copied hc := absurd hc Bool.false_ne_true
  outside _ _ := rfl
  reads := trivial
  writes := by simp [WritesIn]

/-- The string ends in the part. -/
theorem CopyExact.found (hpass : ∀ i < part, mm.Passes (src + i)) (hlt : alen < part)
    (hend : user.EndsAt src alen) (hle : part ≤ maxn) (mm₁ : Option Mm) :
    CopyExact user mm dst off src maxn
      ⟨true, memcpy dst off user src (alen + 1), mm₁,
        [.check src part true, .read src (min (alen + 1) part)] ++
          [.read src (alen + 1), .write off (alen + 1)]⟩ where
  ret_iff := by
    refine ⟨fun _ ↦ ⟨alen, hlt.trans_le hle, hend, fun i hi ↦ hpass i (hi.trans_lt hlt)⟩, ?_⟩
    exact fun _ ↦ rfl
  copied := by
    rintro - k hk i hi
    obtain rfl := hk.unique hend
    dsimp only
    rw [memcpy_of_mem (Nat.le_add_right off i) (by omega), Nat.add_sub_cancel_left]
  outside i hi := memcpy_of_notMem (by omega)
  reads := by
    apply guarded_scan (Nat.min_le_right _ _)
    exact ⟨fun b hb hb' ↦ ⟨hb, by omega⟩, trivial⟩
  writes := by
    intro o n hmem
    simp only [List.cons_append, List.nil_append, List.mem_cons, reduceCtorEq, false_or,
      List.not_mem_nil, or_false, Access.write.injEq] at hmem
    omega

/-- The limit is reached before the string ends. -/
theorem CopyExact.tooLong (hall : ∀ i < maxn, user (src + i) ≠ 0) (mm₁ : Option Mm) :
    CopyExact user mm dst off src maxn
      ⟨false, dst, mm₁, [.check src maxn true, .read src (min (alen + 1) maxn)]⟩ where
  ret_iff := by
    refine ⟨fun hc ↦ absurd hc Bool.false_ne_true, ?_⟩
    rintro ⟨k, hk, hend, -⟩
    exact absurd hend.1 (hall k hk)
  copied hc := absurd hc Bool.false_ne_true
  outside _ _ := rfl
  reads := guarded_scan (Nat.min_le_right _ _) trivial
  writes := by simp [WritesIn]

/-- The part is copied, and the scan goes on behind it. -/
theorem CopyExact.next (h : mm.Wf) (h' : mm'.Wf) (heq : mm'.toMmStruct = mm.toMmStruct)
    (hpass : ∀ i < part, mm.Passes (src + i)) (hall : ∀ i < part, user (src + i) ≠ 0)
    (hle : part ≤ maxn)
    (hrest : CopyExact user mm' (memcpy dst off user src part) (off + part) (src + part)
      (maxn - part) run) :
    CopyExact user mm dst off src maxn
      (run.after ([.check src part true, .read src (min (alen + 1) part)] ++
        [.read src part, .write off part])) where
  ret_iff := by
    rw [CopyRun.after_ret, hrest.ret_iff]
    constructor
    · rintro ⟨k, hk, hend, hp⟩
      refine ⟨part + k, by omega, hend.push hall, fun i hi ↦ ?_⟩
      rcases lt_or_ge i part with hlt | hge
      · exact hpass i hlt
      · have hi' := (Mm.Passes.congr heq h' h _).mp (hp (i - part) (by omega))
        rwa [Nat.add_assoc, Nat.add_sub_cancel' hge] at hi'
    · rintro ⟨k, hk, hend, hp⟩
      obtain ⟨hpk, hend'⟩ := hend.drop hall
      refine ⟨k - part, by omega, hend', fun i hi ↦ ?_⟩
      rw [Mm.Passes.congr heq h' h, Nat.add_assoc]
      exact hp (part + i) (by omega)
  copied := by
    intro hret k hend i hi
    obtain ⟨hpk, hend'⟩ := hend.drop hall
    rw [CopyRun.after_dst]
    rcases lt_or_ge i part with hlt | hge
    · rw [hrest.outside (off + i) (.inl (by omega)),
        memcpy_of_mem (Nat.le_add_right _ _) (by omega), Nat.add_sub_cancel_left]
    · have hi' := hrest.copied hret (k - part) hend' (i - part) (by omega)
      rwa [Nat.add_assoc, Nat.add_assoc, Nat.add_sub_cancel' hge] at hi'
  outside i hi := by
    rw [CopyRun.after_dst, hrest.outside i (by omega)]
    exact memcpy_of_notMem (by omega)
  reads := by
    rw [CopyRun.after_log]
    apply Guarded.append _ hrest.reads
    apply guarded_scan (Nat.min_le_right _ _)
    exact ⟨fun b hb hb' ↦ ⟨hb, hb'⟩, trivial⟩
  writes := by
    intro o n hmem
    rw [CopyRun.after_log, List.mem_append] at hmem
    rcases hmem with hpart | hlater
    · simp only [List.cons_append, List.nil_append, List.mem_cons, reduceCtorEq, false_or,
        List.not_mem_nil, or_false, Access.write.injEq] at hpart
      omega
    · have := hrest.writes o n hlater
      omega

/-- The loop, from a part that is the rest of the page of `src`. -/
theorem copyStringLoop_exact (h : mm.Wf) (hal : mm.Aligned) (hsrc : src < wordSize)
    (hfuel : maxn + 1 < fuel) :
    ∃ run mm', copyStringLoop user fuel (some mm) dst off src maxn (pgSize - src % pgSize) =
        some run ∧ run.mm = some mm' ∧ mm'.toMmStruct = mm.toMmStruct ∧
      CopyExact user mm dst off src maxn run := by
  induction fuel generalizing mm dst off src maxn with
  | zero => exact absurd hfuel (Nat.not_lt_zero _)
  | succ fuel ih =>
    have hrest : 0 < pgSize - src % pgSize := Nat.sub_pos_of_lt (Nat.mod_lt _ (by decide))
    rw [copyStringLoop]
    -- the part is cut off at the limit
    set part := if pgSize - src % pgSize > maxn then maxn else pgSize - src % pgSize with hpart
    have hmin : part = min maxn (pgSize - src % pgSize) := (min_def_lt _ _).symm
    have hpage : part ≤ pgSize - src % pgSize := hmin ▸ min_le_right _ _
    have hle : part ≤ maxn := hmin ▸ min_le_left _ _
    have hempty : maxn = 0 ∨ 0 < part :=
      (Nat.eq_zero_or_pos maxn).imp_right fun hpos ↦ hmin ▸ lt_min hpos hrest
    obtain ⟨r, mm₁, hcheck, hmm₁, hwf₁, hr⟩ :=
      userMemCheck_page h hal hsrc hpage (show part < fuel by omega)
    simp only [hcheck]
    -- a part of no bytes and a part that may not be read are both refused
    cases r with
    | false =>
      rw [if_pos rfl]
      have hno : ¬(0 < part ∧ mm.Passes src) := fun hp ↦ Bool.false_ne_true (hr.mpr hp)
      exact ⟨_, mm₁, rfl, rfl, hmm₁, .refused hempty hno _⟩
    | true =>
      rw [if_neg Bool.true_eq_false_eq_False]
      obtain ⟨hpos, hfirst⟩ := hr.mp rfl
      have hpass : ∀ i < part, mm.Passes (src + i) := fun i hi ↦ hal.passes_part h hpage hfirst hi
      -- the string ends in this part, or the part is copied whole
      rcases strnlen_cases user src part with ⟨hlt, hend⟩ | ⟨hlen, hall⟩
      · rw [if_pos hlt]
        exact ⟨_, mm₁, rfl, rfl, hmm₁, .found hpass hlt hend hle _⟩
      · rw [if_neg (by omega)]
        by_cases hmax : part = maxn
        · rw [if_pos hmax]
          rw [hmax] at hall ⊢
          exact ⟨_, mm₁, rfl, rfl, hmm₁, .tooLong hall _⟩
        · rw [if_neg hmax]
          have hwhole : part = pgSize - src % pgSize :=
            (hmin ▸ min_choice _ _ : part = maxn ∨ part = pgSize - src % pgSize).resolve_left hmax
          have hlast := (Mm.passes_iff h _).mp (hpass (part - 1) (by omega))
          have hword : src + part < wordSize := by
            have htop := hlast.2.1
            rw [userTop] at htop
            rw [wordSize]
            omega
          -- the next part starts at a page
          have hnext : pgSize - (src + part) % pgSize = pgSize := by
            rw [pgSize] at *
            omega
          have hal₁ : mm₁.Aligned := by
            rw [Mm.Aligned, hmm₁]
            exact hal
          obtain ⟨run, mm₂, hrun, hrmm, hmm₂, hexact⟩ :=
            @ih (memcpy dst off user src part) mm₁ (off + part) _ _ hwf₁ hal₁ hword
              (show maxn - part + 1 < fuel by omega)
          rw [hnext] at hrun
          rw [Nat.mod_eq_of_lt hword, hrun]
          exact ⟨_, mm₂, rfl, hrmm, hmm₂.trans hmm₁,
            .next h hwf₁ hmm₁ hpass hall hle hexact⟩

/-- **`copy_string` is exact.** It copies the string when it ends within `maxn` bytes each of which
may be read, and fails otherwise; it looks at checked bytes only and keeps to the destination. -/
theorem copyString_exact (h : mm.Wf) (hal : mm.Aligned) (hsrc : src < wordSize)
    (hfuel : maxn + 1 < fuel) :
    ∃ run mm', copyString user fuel (some mm) dst src maxn = some run ∧ run.mm = some mm' ∧
      mm'.toMmStruct = mm.toMmStruct ∧ CopyExact user mm dst 0 src maxn run := by
  -- the rest of the page is right even when `src + PGSIZE` wraps
  have hpart : (roundDown ((src + pgSize) % wordSize) + wordSize - src) % wordSize =
      pgSize - src % pgSize := by
    rw [roundDown, pgSize, wordSize] at *
    omega
  rw [copyString, hpart]
  exact copyStringLoop_exact h hal hsrc hfuel

/-- A string that crosses the border of two areas. -/
theorem copyString_exact_sample : ∃ run,
    copyString (fun i ↦ if i < 0x300001 then 97 else 0) 12 (some twoMm) Bytes.zero 0x2FFFFE 10 =
        some run ∧
      CopyExact (fun i ↦ if i < 0x300001 then 97 else 0) twoMm Bytes.zero 0 0x2FFFFE 10 run := by
  have hal : twoMm.Aligned := by
    intro v hv
    simp only [twoMm, List.mem_cons, List.not_mem_nil, or_false] at hv
    rcases hv with rfl | rfl
    · decide
    · decide
  have hsrc : 0x2FFFFE < wordSize := by decide
  have hfuel : 10 + 1 < 12 := by decide
  obtain ⟨run, mm', hrun, -, -, hexact⟩ :=
    copyString_exact (wf_of_vmaSteps twoMm_run) hal hsrc hfuel
  exact ⟨run, hrun, hexact⟩

end Loop

end Ucore.AddrSpace
