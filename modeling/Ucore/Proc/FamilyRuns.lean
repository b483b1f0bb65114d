import Ucore.Proc.Family

/-!
# The process tree and do_fork

The process tree is in order (`Kernel.TreeOk`) when the children of a process form a doubly linked
list, every process but the idle process is in the list of one parent, and following the parents
leads to the idle process; before `set_links` a process may be outside of it. The sections that
leave the tree alone keep this, and so do those of `do_fork` and the search of `do_wait`.
-/

namespace Ucore

open Prog

/-- What a process has still to do between `PROC_ZOMBIE` and the reparenting of its children. -/
def telling : List Section := [.exitTell, .schedule, .exited]

namespace Kernel

/-- The process structures that are being made: those that a section has still to link, and the one
that the section being run holds. -/
def Unborn (s : Kernel) (x : Option ℕ) (p : ℕ) : Prop :=
  (∃ q, linking? (s.code q) = some p) ∨ x = some p

/-- `proc_list` and the hash table hold the processes, with their parents. -/
structure Listing (s : Kernel) (x : Option ℕ) : Prop where
  nodup : s.procList.Nodup
  num : s.nrProcess = s.procList.length + 1
  idle : s.idleproc ∉ s.procList
  live : ∀ p, p ∈ s.live ↔ p = s.idleproc ∨ p ∈ s.procList ∨ s.Unborn x p
  parent : ∀ p ∈ s.procList, ∃ q, (s.proc p).parent = some q ∧ (q = s.idleproc ∨ q ∈ s.procList)
  hashNodup : ∀ b, (s.hashList b).Nodup
  hash : ∀ b, ∀ p ∈ s.hashList b, p ∈ s.procList ∧ pidHashfn (s.proc p).pid = b
  unborn : ∀ p, s.Unborn x p → p ∉ s.procList ∧ p ≠ s.idleproc ∧ (s.proc p).cptr = none
  maker : ∀ q p, linking? (s.code q) = some p → (s.proc p).parent = some q
  held : ∀ p, x = some p → (s.proc p).parent = some s.current ∧ linking? (s.code s.current) = none

/-- The process tree is in order. -/
structure TreeOk (s : Kernel) (x : Option ℕ) : Prop where
  kids : ∃ kids, s.Family kids
  listing : s.Listing x
  told : ∀ p, (s.proc p).state = .zombie → (s.proc p).cptr = none ∨ s.code p = telling

/-- `initproc` is there to adopt the orphans: it does not exit, and the tree below the idle process
has no cycle. -/
structure InitOk (s : Kernel) : Prop where
  mem : s.initproc ∈ s.procList
  alive : (s.proc s.initproc).state ≠ .zombie
  exits : ∀ q code, .exitZombie code ∈ s.code q → q ≠ s.initproc
  rooted : ∃ rank : ℕ → ℕ, ∀ p ∈ s.procList, (p ≠ s.initproc → rank s.initproc < rank p) ∧
    ∀ q, (s.proc p).parent = some q → rank q < rank p

variable {s t : Kernel} {x : Option ℕ} {p : ℕ} {kids : ℕ → List ℕ}

/-! ## Sections that leave the tree alone -/

theorem unborn_congr (hsame : SameKin s t) : t.Unborn x = s.Unborn x := by
  funext p
  simp only [Unborn, hsame.linking]

theorem Listing.congr (h : s.Listing x) (hsame : SameKin s t) : t.Listing x where
  nodup := by
    rw [hsame.procList]
    exact h.nodup
  num := by
    rw [hsame.procList, hsame.nrProcess]
    exact h.num
  idle := by
    rw [hsame.procList, hsame.idleproc]
    exact h.idle
  live p := by
    rw [hsame.live, hsame.procList, hsame.idleproc, unborn_congr hsame]
    exact h.live p
  parent p hp := by
    rw [hsame.procList] at hp
    rw [hsame.parent, hsame.idleproc, hsame.procList]
    exact h.parent p hp
  hashNodup b := by
    rw [hsame.hashList]
    exact h.hashNodup b
  hash b p hp := by
    rw [hsame.hashList] at hp
    rw [hsame.procList, hsame.pid]
    exact h.hash b p hp
  unborn p hp := by
    rw [unborn_congr hsame] at hp
    rw [hsame.procList, hsame.idleproc, hsame.cptr]
    exact h.unborn p hp
  maker q p hq := by
    rw [hsame.linking] at hq
    rw [hsame.parent]
    exact h.maker q p hq
  held p hp := by
    rw [hsame.parent, hsame.current, hsame.linking]
    exact h.held p hp

theorem InitOk.congr (h : s.InitOk) (hsame : SameKin s t) : t.InitOk where
  mem := by
    rw [hsame.initproc, hsame.procList]
    exact h.mem
  alive hz := by
    rw [hsame.initproc] at hz
    exact h.alive (hsame.zombie _ hz)
  exits q code hq := by
    rw [hsame.initproc]
    exact h.exits q code (hsame.exits q code hq)
  rooted := by
    obtain ⟨rank, hrank⟩ := h.rooted
    refine ⟨rank, fun p hp ↦ ?_⟩
    rw [hsame.procList] at hp
    rw [hsame.initproc, hsame.parent]
    exact hrank p hp

theorem Family.of_same (h : s.Family kids) (hsame : SameKin s t) : t.Family kids :=
  h.congr hsame.procList hsame.parent hsame.cptr hsame.yptr hsame.optr

theorem TreeOk.congr (h : s.TreeOk x) (hsame : SameKin s t)
    (htell : ∀ p, s.code p = telling → t.code p = telling) : t.TreeOk x where
  kids := h.kids.imp fun _ hk ↦ hk.of_same hsame
  listing := h.listing.congr hsame
  told p hp := by
    rw [hsame.cptr]
    exact (h.told p (hsame.zombie p hp)).imp_right (htell p)

/-- A process that is about to tell its relatives that it exits is on the processor. -/
theorem RunOk.telling_current (h : s.RunOk) (hp : s.code p = telling) : p = s.current := by
  have hshape := h.sched.shape p
  rw [hp, telling] at hshape
  generalize (s.proc p).state = st at hshape
  generalize (s.proc p).waitState = w at hshape
  cases hshape with
  | plain hl =>
    cases hl with
    | cons hi _ => exact absurd hi id
  | woken hr _ _ => cases hr
  | asleep _ hr _ => cases hr
  | telling hc => exact hc

/-- In the middle of another section no process is about to tell that. -/
theorem RunOk.not_telling (h : s.RunOk) {i : Section} {rest : List Section}
    (hcode : s.code s.current = i :: rest) (hi : i ≠ .exitTell) (p : ℕ) : s.code p ≠ telling := by
  intro hp
  obtain rfl := h.telling_current hp
  rw [hcode, telling] at hp
  exact hi (List.cons.inj hp).1

/-! ## do_fork -/

/-- A process structure is made. -/
theorem TreeOk.embryo (h : s.TreeOk none) (hp : p ∉ s.live)
    (hcode : linking? (s.code s.current) = none) (hdead : linking? (s.code p) = none) :
    (s.embryo p).TreeOk (some p) := by
  obtain ⟨kids, hk⟩ := h.kids
  have hl := h.listing
  have hne : ∀ q, q ∈ s.live → q ≠ p := by
    rintro q hq rfl
    exact hp hq
  have hlist : ∀ q ∈ s.procList, q ≠ p := fun q hq ↦ hne q ((hl.live q).mpr (.inr (.inl hq)))
  have hproc : ∀ q, q ≠ p → (s.embryo p).proc q = s.proc q := fun q hq ↦ embryo_proc_of_ne s hq
  have hself : (s.embryo p).proc p = { Proc.blank with parent := some s.current } :=
    embryo_proc_self s p
  have hcodes : ∀ q, linking? ((s.embryo p).code q) = linking? (s.code q) := by
    intro q
    rcases eq_or_ne q p with rfl | hq
    · rw [embryo_code_self, hdead, linking?_nil]
    · rw [embryo_code_of_ne s hq]
  have hunborn : ∀ q, (s.embryo p).Unborn (some p) q ↔ s.Unborn none q ∨ q = p := by
    intro q
    simp only [Unborn, hcodes, Option.some_inj, reduceCtorEq, or_false, eq_comm]
  have hidle : s.idleproc ≠ p := hne _ ((hl.live _).mpr (.inl rfl))
  have hold : ∀ q, s.Unborn none q → q ≠ p := fun q hq ↦ hne q ((hl.live q).mpr (.inr (.inr hq)))
  -- a parent is a live process, and `p` was not
  have hnil : kids p = [] := by
    refine List.eq_nil_iff_forall_not_mem.mpr fun y hy ↦ ?_
    obtain ⟨hy, hpar⟩ := (hk.mem p y).mp hy
    obtain ⟨q, hq, hqs⟩ := hl.parent y hy
    rw [hpar] at hq
    obtain rfl := Option.some.inj hq
    exact hp ((hl.live p).mpr (hqs.imp_right .inl))
  refine ⟨⟨kids, fun q ↦ ?_, fun q ↦ ?_, hk.nodup, fun q y ↦ ?_⟩,
    ⟨hl.nodup, hl.num, hl.idle, fun q ↦ ?_, fun q hq ↦ ?_, hl.hashNodup, fun b q hq ↦ ?_,
      fun q hq ↦ ?_, fun q r hr ↦ ?_, fun q hq ↦ ?_⟩, fun q hq ↦ ?_⟩
  · rcases eq_or_ne q p with rfl | hq
    · rw [hself, hnil]
      rfl
    · rw [hproc q hq, hk.first]
  · refine (hk.links q).congr (fun y hy ↦ ?_) fun y hy ↦ ?_
    · rw [hproc y (hlist y ((hk.mem q y).mp hy).1)]
    · rw [hproc y (hlist y ((hk.mem q y).mp hy).1)]
  · rw [hk.mem]
    exact and_congr_right fun hy ↦ by rw [hproc y (hlist y hy)]
  · change q ∈ insert p s.live ↔ q = s.idleproc ∨ q ∈ s.procList ∨ _
    rw [Finset.mem_insert, hunborn, hl.live]
    tauto
  · rw [hproc q (hlist q hq)]
    exact hl.parent q hq
  · obtain ⟨hq', hb⟩ := hl.hash b q hq
    rw [hproc q (hlist q hq')]
    exact ⟨hq', hb⟩
  · rcases (hunborn q).mp hq with hq' | rfl
    · rw [hproc q (hold q hq')]
      exact hl.unborn q hq'
    · rw [hself]
      exact ⟨fun hq' ↦ hlist q hq' rfl, hidle.symm, rfl⟩
  · rw [hcodes] at hr
    rw [hproc r (hold r (.inl ⟨q, hr⟩))]
    exact hl.maker q r hr
  · obtain rfl := Option.some.inj hq
    rw [hself]
    exact ⟨rfl, (hcodes _).trans hcode⟩
  · rcases eq_or_ne q p with rfl | hq'
    · rw [hself] at hq
      cases hq
    · rw [hproc q hq', embryo_code_of_ne s hq']
      rw [hproc q hq'] at hq
      exact h.told q hq

theorem InitOk.embryo (h : s.InitOk) (hl : s.Listing none) (hp : p ∉ s.live) :
    (s.embryo p).InitOk := by
  have hlist : ∀ q ∈ s.procList, q ≠ p := by
    rintro q hq rfl
    exact hp ((hl.live q).mpr (.inr (.inl hq)))
  have hproc : ∀ q ∈ s.procList, (s.embryo p).proc q = s.proc q := fun q hq ↦
    embryo_proc_of_ne s (hlist q hq)
  refine ⟨h.mem, ?_, fun q code hq ↦ ?_, ?_⟩
  · change ((s.embryo p).proc s.initproc).state ≠ _
    rw [hproc _ h.mem]
    exact h.alive
  · rcases eq_or_ne q p with rfl | hne
    · exact fun hq' ↦ hlist _ h.mem hq'.symm
    · rw [embryo_code_of_ne s hne] at hq
      exact h.exits q code hq
  · obtain ⟨rank, hrank⟩ := h.rooted
    refine ⟨rank, fun q hq ↦ ?_⟩
    rw [hproc q hq]
    exact hrank q hq

/-- No other section has still to link the process structure that is held. -/
theorem Listing.not_linking (h : s.Listing (some p)) (q : ℕ) : linking? (s.code q) ≠ some p := by
  intro hq
  obtain ⟨hpar, hcode⟩ := h.held p rfl
  rw [h.maker q p hq] at hpar
  rw [← Option.some.inj hpar, hq] at hcode
  cases hcode

/-- A process structure that was not linked is freed. -/
theorem TreeOk.kfreeProc (h : s.TreeOk (some p)) : (s.kfreeProc p).TreeOk none := by
  have hl := h.listing
  obtain ⟨hlist, hidle, -⟩ := hl.unborn p (.inr rfl)
  have hmono : ∀ q, s.Unborn none q → s.Unborn (some p) q := fun q hq ↦
    .inl (hq.resolve_right (Option.some_ne_none q).symm)
  obtain ⟨kids, hk⟩ := h.kids
  refine ⟨⟨kids, hk.congr rfl (fun _ ↦ rfl) (fun _ ↦ rfl) (fun _ ↦ rfl) fun _ ↦ rfl⟩,
    ⟨hl.nodup, hl.num, hl.idle, fun q ↦ ?_, hl.parent, hl.hashNodup, hl.hash,
      fun q hq ↦ hl.unborn q (hmono q hq), hl.maker, fun q hq ↦ ?_⟩, h.told⟩
  · change q ∈ s.live.erase p ↔ q = s.idleproc ∨ q ∈ s.procList ∨ s.Unborn none q
    rw [Finset.mem_erase, hl.live]
    constructor
    · rintro ⟨hne, hq⟩
      refine hq.imp_right (Or.imp_right fun hu ↦ .inl (hu.resolve_right fun hc ↦ ?_))
      exact hne (Option.some.inj hc).symm
    · intro hq
      refine ⟨?_, hq.imp_right (Or.imp_right (hmono q))⟩
      rintro rfl
      rcases hq with hq | hq | ⟨r, hr⟩ | hq
      · exact hidle hq
      · exact hlist hq
      · exact hl.not_linking r hr
      · cases hq
  · cases hq

theorem InitOk.kfreeProc (h : s.InitOk) (p : ℕ) : (s.kfreeProc p).InitOk :=
  ⟨h.mem, h.alive, h.exits, h.rooted⟩

theorem mem_push {i : Section} {q : ℕ} {l : List Section} (hi : i ∈ (s.push l).code q) :
    i ∈ l ∧ q = s.current ∨ i ∈ s.code q := by
  rcases eq_or_ne q s.current with rfl | hne
  · rw [push, setCode_self, List.mem_append] at hi
    exact hi.imp_left fun hmem ↦ ⟨hmem, rfl⟩
  · rw [push, setCode_of_ne s hne] at hi
    exact .inr hi

/-- The section that will link the process structure is put in place. -/
theorem TreeOk.push_linking (h : s.TreeOk (some p)) (hno : ∀ p, s.code p ≠ telling)
    (hnil : s.code s.current = []) {l : List Section} {i : Section} (hi : i.linking? = some p) :
    (s.push (l ++ [i])).TreeOk none := by
  have hl := h.listing
  have hself : linking? ((s.push (l ++ [i])).code s.current) = some p := by
    rw [push, setCode_self, hnil, List.append_nil, linking?, List.getLast?_concat]
    exact hi
  have hother : ∀ q, q ≠ s.current → (s.push (l ++ [i])).code q = s.code q := fun q hq ↦
    setCode_of_ne s hq _
  have hunborn : (s.push (l ++ [i])).Unborn none = s.Unborn (some p) := by
    funext q
    refine propext ⟨?_, ?_⟩
    · rintro (⟨r, hr⟩ | hr)
      · rcases eq_or_ne r s.current with rfl | hne
        · exact .inr (hself.symm.trans hr)
        · rw [hother r hne] at hr
          exact .inl ⟨r, hr⟩
      · cases hr
    · rintro (⟨r, hr⟩ | hr)
      · refine .inl ⟨r, ?_⟩
        rw [hother r]
        · exact hr
        · rintro rfl
          rw [hnil, linking?_nil] at hr
          cases hr
      · exact .inl ⟨s.current, hself.trans hr⟩
  obtain ⟨kids, hk⟩ := h.kids
  refine ⟨⟨kids, hk.congr rfl (fun _ ↦ rfl) (fun _ ↦ rfl) (fun _ ↦ rfl) fun _ ↦ rfl⟩,
    ⟨hl.nodup, hl.num, hl.idle, fun q ↦ ?_, hl.parent, hl.hashNodup, hl.hash, fun q hq ↦ ?_,
      fun q r hr ↦ ?_, fun q hq ↦ ?_⟩, fun q hq ↦ .inl ?_⟩
  · rw [hunborn]
    exact hl.live q
  · rw [hunborn] at hq
    exact hl.unborn q hq
  · rcases eq_or_ne q s.current with rfl | hne
    · obtain rfl := Option.some.inj (hself.symm.trans hr)
      exact (hl.held p rfl).1
    · rw [hother q hne] at hr
      exact hl.maker q r hr
  · cases hq
  · exact (h.told q hq).resolve_right (hno q)

theorem InitOk.push (h : s.InitOk) {l : List Section}
    (hl : ∀ code, .exitZombie code ∈ l → s.current ≠ s.initproc) : (s.push l).InitOk := by
  refine ⟨h.mem, h.alive, fun q code hq ↦ ?_, h.rooted⟩
  rcases mem_push hq with ⟨hmem, rfl⟩ | hmem
  · exact hl code hmem
  · exact h.exits q code hmem

/-- The section that links the process structure begins. -/
theorem TreeOk.pop_linking (h : s.TreeOk none) {i : Section} (hcode : s.code s.current = [i])
    (hi : i.linking? = some p) (hno : ∀ p, s.code p ≠ telling) :
    (s.setCode s.current []).TreeOk (some p) := by
  have hl := h.listing
  have hself : linking? (s.code s.current) = some p := by
    rw [hcode, linking?_singleton, hi]
  have hother : ∀ q, q ≠ s.current → (s.setCode s.current []).code q = s.code q := fun q hq ↦
    setCode_of_ne s hq _
  have hunborn : (s.setCode s.current []).Unborn (some p) = s.Unborn none := by
    funext q
    refine propext ⟨?_, ?_⟩
    · rintro (⟨r, hr⟩ | hr)
      · refine .inl ⟨r, ?_⟩
        rw [← hother r]
        · exact hr
        · rintro rfl
          rw [setCode_self, linking?_nil] at hr
          cases hr
      · exact .inl ⟨s.current, hself.trans hr⟩
    · rintro (⟨r, hr⟩ | hr)
      · rcases eq_or_ne r s.current with rfl | hne
        · exact .inr (hself.symm.trans hr)
        · exact .inl ⟨r, (hother r hne).symm ▸ hr⟩
      · cases hr
  obtain ⟨kids, hk⟩ := h.kids
  refine ⟨⟨kids, hk.congr rfl (fun _ ↦ rfl) (fun _ ↦ rfl) (fun _ ↦ rfl) fun _ ↦ rfl⟩,
    ⟨hl.nodup, hl.num, hl.idle, fun q ↦ ?_, hl.parent, hl.hashNodup, hl.hash, fun q hq ↦ ?_,
      fun q r hr ↦ ?_, fun q hq ↦ ?_⟩, fun q hq ↦ .inl ?_⟩
  · rw [hunborn]
    exact hl.live q
  · rw [hunborn] at hq
    exact hl.unborn q hq
  · rcases eq_or_ne q s.current with rfl | hne
    · rw [setCode_self, linking?_nil] at hr
      cases hr
    · rw [hother q hne] at hr
      exact hl.maker q r hr
  · obtain rfl := Option.some.inj hq
    refine ⟨hl.maker s.current p hself, ?_⟩
    change linking? ((s.setCode s.current []).code s.current) = none
    rw [setCode_self, linking?_nil]
  · exact (h.told q hq).resolve_right (hno q)

theorem InitOk.setCode_tail (h : s.InitOk) {i : Section} {rest : List Section}
    (hcode : s.code s.current = i :: rest) : (s.setCode s.current rest).InitOk := by
  refine ⟨h.mem, h.alive, fun q code hq ↦ ?_, h.rooted⟩
  rcases eq_or_ne q s.current with rfl | hne
  · rw [setCode_self] at hq
    refine h.exits s.current code ?_
    rw [hcode]
    exact List.mem_cons_of_mem i hq
  · rw [setCode_of_ne s hne] at hq
    exact h.exits q code hq

/-- The new process structure gets its pid. -/
theorem TreeOk.setPid (h : s.TreeOk (some p)) (n : ℕ) :
    (s.setProc p fun q ↦ { q with pid := n }).TreeOk (some p) := by
  have hl := h.listing
  have hlist : ∀ q ∈ s.procList, q ≠ p := by
    rintro q hq rfl
    exact (hl.unborn q (.inr rfl)).1 hq
  have hpar := s.setProc_field (g := Proc.parent) p (f := fun q ↦ { q with pid := n }) fun _ ↦ rfl
  have hc := s.setProc_field (g := Proc.cptr) p (f := fun q ↦ { q with pid := n }) fun _ ↦ rfl
  have hy := s.setProc_field (g := Proc.yptr) p (f := fun q ↦ { q with pid := n }) fun _ ↦ rfl
  have ho := s.setProc_field (g := Proc.optr) p (f := fun q ↦ { q with pid := n }) fun _ ↦ rfl
  have hst := s.setProc_field (g := Proc.state) p (f := fun q ↦ { q with pid := n }) fun _ ↦ rfl
  obtain ⟨kids, hk⟩ := h.kids
  refine ⟨⟨kids, hk.congr rfl hpar hc hy ho⟩, ⟨hl.nodup, hl.num, hl.idle, hl.live,
    fun q hq ↦ ?_, hl.hashNodup, fun b q hq ↦ ?_, fun q hq ↦ ?_, fun q r hr ↦ ?_, fun q hq ↦ ?_⟩,
    fun q hq ↦ ?_⟩
  · rw [hpar]
    exact hl.parent q hq
  · rw [setProc_of_ne s (hlist q (hl.hash b q hq).1)]
    exact hl.hash b q hq
  · rw [hc]
    exact hl.unborn q hq
  · rw [hpar]
    exact hl.maker q r hr
  · rw [hpar]
    exact hl.held q hq
  · rw [hst] at hq
    rw [hc]
    exact h.told q hq

theorem InitOk.setPid (h : s.InitOk) (p n : ℕ) :
    (s.setProc p fun q ↦ { q with pid := n }).InitOk := by
  have hpar := s.setProc_field (g := Proc.parent) p (f := fun q ↦ { q with pid := n }) fun _ ↦ rfl
  have hst := s.setProc_field (g := Proc.state) p (f := fun q ↦ { q with pid := n }) fun _ ↦ rfl
  refine ⟨h.mem, fun hz ↦ h.alive ((hst _).symm.trans hz), h.exits, ?_⟩
  obtain ⟨rank, hrank⟩ := h.rooted
  refine ⟨rank, fun q hq ↦ ?_⟩
  rw [hpar]
  exact hrank q hq

/-- `set_links` writes process structures and the two lists. -/
theorem setLinks_eq (s : Kernel) (p q : ℕ) : ∃ f, s.setLinks p q =
    { s with proc := f, procList := p :: s.procList, nrProcess := s.nrProcess + 1 } := by
  obtain ⟨f, hf⟩ := s.adopt_eq p q
  refine ⟨f, ?_⟩
  rw [setLinks, hf]

/-- `hash_proc` and `set_links`. -/
theorem TreeOk.setLinks (h : s.TreeOk (some p)) {q : ℕ} (hpar : (s.proc p).parent = some q)
    (hq : q = s.idleproc ∨ q ∈ s.procList) (halive : (s.proc q).state ≠ .zombie) :
    ((s.hashProc p).setLinks p q).TreeOk none := by
  obtain ⟨kids, hk⟩ := h.kids
  have hl := h.listing
  obtain ⟨hlist, hidle, hchild⟩ := hl.unborn p (.inr rfl)
  have hfam : (s.hashProc p).Family kids :=
    hk.congr rfl (fun _ ↦ rfl) (fun _ ↦ rfl) (fun _ ↦ rfl) fun _ ↦ rfl
  obtain ⟨f, hf⟩ := (s.hashProc p).setLinks_eq p q
  have hparent := (s.hashProc p).setLinks_field (g := Proc.parent) p q (fun _ _ ↦ rfl)
    (fun _ _ ↦ rfl) fun _ _ ↦ rfl
  have hpid := (s.hashProc p).setLinks_field (g := Proc.pid) p q (fun _ _ ↦ rfl)
    (fun _ _ ↦ rfl) fun _ _ ↦ rfl
  have hstate := (s.hashProc p).setLinks_field (g := Proc.state) p q (fun _ _ ↦ rfl)
    (fun _ _ ↦ rfl) fun _ _ ↦ rfl
  -- of the child pointers only that of the parent changes
  have hcptr : ∀ r, (((s.hashProc p).setLinks p q).proc r).cptr =
      if r = q then some p else (s.proc r).cptr := (s.hashProc p).adopt_cptr p q
  have hpq : p ≠ q := by
    rintro rfl
    exact hq.elim hidle hlist
  -- what is unborn afterwards was unborn before, and `p` no longer is
  have hold : ∀ r, s.Unborn none r → s.Unborn (some p) r ∧ r ≠ p := by
    rintro r (⟨q', hr⟩ | hr)
    · refine ⟨.inl ⟨q', hr⟩, ?_⟩
      rintro rfl
      exact hl.not_linking q' hr
    · cases hr
  have hhash : ∀ b, ((s.hashProc p).setLinks p q).hashList b =
      if b = pidHashfn (s.proc p).pid then p :: s.hashList b else s.hashList b := by
    intro b
    rw [hf]
    change Function.update s.hashList _ _ b = _
    by_cases hb : b = pidHashfn (s.proc p).pid
    · rw [if_pos hb, hb, Function.update_self]
    · rw [if_neg hb, Function.update_of_ne hb]
  refine ⟨⟨_, hfam.setLinks hlist hpar⟩, ⟨?_, ?_, ?_, fun r ↦ ?_, fun r hr ↦ ?_, fun b ↦ ?_,
    fun b r hr ↦ ?_, fun r hr ↦ ?_, fun r r' hr ↦ ?_, fun r hr ↦ ?_⟩, fun r hr ↦ ?_⟩
  · rw [hf]
    exact List.nodup_cons.mpr ⟨hlist, hl.nodup⟩
  · rw [hf]
    change s.nrProcess + 1 = (p :: s.procList).length + 1
    rw [hl.num, List.length_cons]
  · rw [hf]
    change s.idleproc ∉ p :: s.procList
    rw [List.mem_cons, not_or]
    exact ⟨hidle.symm, hl.idle⟩
  · rw [hf]
    change r ∈ s.live ↔ r = s.idleproc ∨ r ∈ p :: s.procList ∨ s.Unborn none r
    rw [hl.live, List.mem_cons]
    -- `p` goes from the unborn structures to the list
    constructor
    · rintro (hr | hr | hr | hr)
      · exact .inl hr
      · exact .inr (.inl (.inr hr))
      · exact .inr (.inr (.inl hr))
      · exact .inr (.inl (.inl (Option.some.inj hr).symm))
    · rintro (hr | (rfl | hr) | hr)
      · exact .inl hr
      · exact .inr (.inr (.inr rfl))
      · exact .inr (.inl hr)
      · exact .inr (.inr (hold r hr).1)
  · rw [hparent]
    have hlists : ∀ r', (r' = s.idleproc ∨ r' ∈ s.procList) →
        r' = ((s.hashProc p).setLinks p q).idleproc ∨
          r' ∈ ((s.hashProc p).setLinks p q).procList := fun r' hr' ↦ by
      rw [hf]
      exact hr'.imp_right (List.mem_cons_of_mem p)
    rw [hf] at hr
    rcases List.mem_cons.mp hr with rfl | hr
    · exact ⟨q, hpar, hlists q hq⟩
    · obtain ⟨q', hq', hmem⟩ := hl.parent r hr
      exact ⟨q', hq', hlists q' hmem⟩
  · rw [hhash]
    split_ifs
    · exact List.nodup_cons.mpr ⟨fun hmem ↦ hlist (hl.hash b p hmem).1, hl.hashNodup b⟩
    · exact hl.hashNodup b
  · rw [hpid]
    rw [hhash] at hr
    have hr' : r = p ∧ b = pidHashfn (s.proc p).pid ∨ r ∈ s.hashList b := by
      split_ifs at hr with hb
      · exact (List.mem_cons.mp hr).imp_left fun hrp ↦ ⟨hrp, hb⟩
      · exact .inr hr
    rcases hr' with ⟨rfl, hb⟩ | hmem
    · rw [hf]
      exact ⟨List.mem_cons_self, hb.symm⟩
    · obtain ⟨hmem', hb⟩ := hl.hash b r hmem
      rw [hf]
      exact ⟨List.mem_cons_of_mem p hmem', hb⟩
  · have hr' : s.Unborn none r := by
      rw [hf] at hr
      exact hr
    obtain ⟨hu, hne⟩ := hold r hr'
    obtain ⟨hnot, hidle', hc⟩ := hl.unborn r hu
    have hrq : r ≠ q := by
      rintro rfl
      exact hq.elim hidle' hnot
    rw [hcptr, if_neg hrq, hf]
    refine ⟨?_, hidle', hc⟩
    change r ∉ p :: s.procList
    rw [List.mem_cons, not_or]
    exact ⟨hne, hnot⟩
  · rw [hparent]
    rw [hf] at hr
    exact hl.maker r r' hr
  · cases hr
  · rw [hstate] at hr
    have hrq : r ≠ q := by
      rintro rfl
      exact halive hr
    rw [hcptr, if_neg hrq, hf]
    exact h.told r hr

/-- The new process has its maker above it. -/
theorem InitOk.setLinks (h : s.InitOk) (hp : p ∉ s.procList) {q : ℕ}
    (hpar : (s.proc p).parent = some q) (hq : q ∈ s.procList)
    (hchild : ∀ r ∈ s.procList, (s.proc r).parent ≠ some p) :
    ((s.hashProc p).setLinks p q).InitOk := by
  obtain ⟨f, hf⟩ := (s.hashProc p).setLinks_eq p q
  have hparent := (s.hashProc p).setLinks_field (g := Proc.parent) p q (fun _ _ ↦ rfl)
    (fun _ _ ↦ rfl) fun _ _ ↦ rfl
  have hstate := (s.hashProc p).setLinks_field (g := Proc.state) p q (fun _ _ ↦ rfl)
    (fun _ _ ↦ rfl) fun _ _ ↦ rfl
  have hinit : ((s.hashProc p).setLinks p q).initproc = s.initproc := by rw [hf]; rfl
  have hlist : ((s.hashProc p).setLinks p q).procList = p :: s.procList := by rw [hf]; rfl
  obtain ⟨rank, hrank⟩ := h.rooted
  have hne : ∀ r ∈ s.procList, r ≠ p := by
    rintro r hr rfl
    exact hp hr
  refine ⟨?_, fun hz ↦ ?_, fun r code hr ↦ ?_,
    ⟨Function.update rank p (rank q + 1), fun r hr ↦ ?_⟩⟩
  · rw [hinit, hlist]
    exact List.mem_cons_of_mem p h.mem
  · rw [hinit, hstate] at hz
    exact h.alive hz
  · rw [hinit]
    refine h.exits r code ?_
    rw [hf] at hr
    exact hr
  · rw [hinit, hparent]
    rw [hlist] at hr
    rw [Function.update_of_ne (hne _ h.mem)]
    rcases List.mem_cons.mp hr with rfl | hmem
    · rw [Function.update_self]
      have hle : rank s.initproc ≤ rank q := by
        by_cases hqi : q = s.initproc
        · rw [hqi]
        · exact ((hrank q hq).1 hqi).le
      refine ⟨fun _ ↦ Nat.lt_succ_of_le hle, fun q' hq' ↦ ?_⟩
      obtain rfl := Option.some.inj (hpar.symm.trans hq')
      rw [Function.update_of_ne (hne q hq)]
      exact Nat.lt_succ_self _
    · rw [Function.update_of_ne (hne r hmem)]
      refine ⟨(hrank r hmem).1, fun q' hq' ↦ ?_⟩
      have hq'p : q' ≠ p := by
        rintro rfl
        exact hchild r hmem hq'
      rw [Function.update_of_ne hq'p]
      exact (hrank r hmem).2 q' hq'

/-! ## do_wait -/

/-- `remove_links` writes process structures and the two lists. -/
theorem removeLinks_run (s : Kernel) (p : ℕ) : ∃ f, s.removeLinks p =
    { s with proc := f, procList := s.procList.erase p, nrProcess := s.nrProcess - 1 } := by
  obtain ⟨f, hf⟩ := s.unlink_eq p
  refine ⟨f, ?_⟩
  rw [removeLinks_eq, hf]

/-- A zombie has no children, unless it is about to give them away. -/
theorem Family.childless (h : s.Family kids) (hp : (s.proc p).cptr = none) {r : ℕ}
    (hr : r ∈ s.procList) : (s.proc r).parent ≠ some p := by
  intro hpar
  have hmem : r ∈ kids p := (h.mem p r).mpr ⟨hr, hpar⟩
  rw [h.kids_eq_nil.mp hp] at hmem
  exact List.not_mem_nil hmem

/-- What `do_wait` does with the zombie it has found. -/
theorem TreeOk.reap (h : s.TreeOk none) (hno : ∀ p, s.code p ≠ telling) {c : ℕ}
    (hc : c ∈ s.procList) (hz : (s.proc c).state = .zombie) :
    (((s.unhashProc c).removeLinks c).kfreeProc c).TreeOk none := by
  obtain ⟨kids, hk⟩ := h.kids
  have hl := h.listing
  -- no process is giving its children away, so a zombie has none
  have htold : ∀ p, (s.proc p).state = .zombie → (s.proc p).cptr = none := fun p hp ↦
    (h.told p hp).resolve_right (hno p)
  obtain ⟨q, hpar, hq⟩ := hl.parent c hc
  have hfam : (s.unhashProc c).Family kids :=
    hk.congr rfl (fun _ ↦ rfl) (fun _ ↦ rfl) (fun _ ↦ rfl) fun _ ↦ rfl
  have hidle : c ≠ s.idleproc := by
    rintro rfl
    exact hl.idle hc
  obtain ⟨f, hf⟩ := (s.unhashProc c).removeLinks_run c
  set t := (s.unhashProc c).removeLinks c with ht
  have hparent : ∀ r, (t.proc r).parent = (s.proc r).parent :=
    (s.unhashProc c).unlink_field (g := Proc.parent) (fun _ _ ↦ rfl) (fun _ _ ↦ rfl)
      (fun _ _ ↦ rfl) c
  have hpid : ∀ r, (t.proc r).pid = (s.proc r).pid :=
    (s.unhashProc c).unlink_field (g := Proc.pid) (fun _ _ ↦ rfl) (fun _ _ ↦ rfl)
      (fun _ _ ↦ rfl) c
  have hstate : ∀ r, (t.proc r).state = (s.proc r).state :=
    (s.unhashProc c).unlink_field (g := Proc.state) (fun _ _ ↦ rfl) (fun _ _ ↦ rfl)
      (fun _ _ ↦ rfl) c
  -- only the parent of `c` can have pointed to it
  have hcptr : ∀ r, r ≠ q → (t.proc r).cptr = (s.proc r).cptr := by
    intro r hr
    have hfield := (s.unhashProc c).unlink_cptr c r
    rw [if_neg fun hcond ↦ hr (Option.some.inj (hcond.2.symm.trans hpar))] at hfield
    exact hfield
  have hlist : t.procList = s.procList.erase c := by rw [hf]; rfl
  have hmem : ∀ r, r ∈ t.procList ↔ r ≠ c ∧ r ∈ s.procList := fun r ↦ by
    rw [hlist, hl.nodup.mem_erase_iff]
  -- this is why nobody's parent is freed with the structure
  have hfree : ∀ r ∈ s.procList, (s.proc r).parent ≠ some c := fun r hr ↦
    hk.childless (htold c hz) hr
  have hhash : ∀ b r, r ∈ t.hashList b ↔ r ≠ c ∧ r ∈ s.hashList b := by
    intro b r
    have hupd : t.hashList b =
        if b = pidHashfn (s.proc c).pid then (s.hashList b).erase c else s.hashList b := by
      rw [hf]
      change Function.update s.hashList _ _ b = _
      by_cases hb : b = pidHashfn (s.proc c).pid
      · rw [if_pos hb, hb, Function.update_self]
      · rw [if_neg hb, Function.update_of_ne hb]
    rw [hupd]
    split_ifs with hb
    · rw [(hl.hashNodup b).mem_erase_iff]
    · refine ⟨fun hr ↦ ⟨?_, hr⟩, And.right⟩
      rintro rfl
      exact hb (hl.hash b r hr).2.symm
  have hcode : t.code = s.code := by rw [hf]; rfl
  have hunborn : t.Unborn none = s.Unborn none := by
    funext r
    simp only [Unborn, hcode]
  refine ⟨⟨_, (hfam.removeLinks hc hl.nodup hpar).congr rfl (fun _ ↦ rfl) (fun _ ↦ rfl)
      (fun _ ↦ rfl) fun _ ↦ rfl⟩, ⟨?_, ?_, ?_, fun r ↦ ?_, fun r hr ↦ ?_, fun b ↦ ?_,
    fun b r hr ↦ ?_, fun r hr ↦ ?_, fun r r' hr ↦ ?_, fun r hr ↦ ?_⟩, fun r hr ↦ ?_⟩
  · change t.procList.Nodup
    rw [hlist]
    exact hl.nodup.erase c
  · have hpos : 0 < s.procList.length := List.length_pos_of_mem hc
    change t.nrProcess = t.procList.length + 1
    rw [hlist, List.length_erase_of_mem hc, hf]
    change s.nrProcess - 1 = _
    rw [hl.num]
    omega
  · change t.idleproc ∉ t.procList
    rw [hmem, hf]
    exact fun hmem ↦ hl.idle hmem.2
  · change r ∈ t.live.erase c ↔ r = t.idleproc ∨ r ∈ t.procList ∨ t.Unborn none r
    have hold : r = c → ¬(r = s.idleproc) ∧ ¬s.Unborn none r := by
      rintro rfl
      exact ⟨hidle, fun hu ↦ (hl.unborn r hu).1 hc⟩
    rw [Finset.mem_erase, hmem, hunborn, hf]
    change r ≠ c ∧ r ∈ s.live ↔ r = s.idleproc ∨ r ≠ c ∧ r ∈ s.procList ∨ s.Unborn none r
    rw [hl.live]
    tauto
  · obtain ⟨-, hrs⟩ := (hmem r).mp hr
    obtain ⟨q', hq', hmem'⟩ := hl.parent r hrs
    refine ⟨q', (hparent r).trans hq', ?_⟩
    have hne : q' ≠ c := by
      rintro rfl
      exact hfree r hrs hq'
    rcases hmem' with hi | hm
    · refine .inl (hi.trans ?_)
      change _ = t.idleproc
      rw [hf]
      rfl
    · exact .inr ((hmem q').mpr ⟨hne, hm⟩)
  · change (t.hashList b).Nodup
    have hupd : t.hashList b = s.hashList b ∨ t.hashList b = (s.hashList b).erase c := by
      rw [hf]
      change Function.update s.hashList _ _ b = _ ∨ Function.update s.hashList _ _ b = _
      by_cases hb : b = pidHashfn (s.proc c).pid
      · rw [hb, Function.update_self]
        exact .inr rfl
      · rw [Function.update_of_ne hb]
        exact .inl rfl
    rcases hupd with heq | heq
    · rw [heq]
      exact hl.hashNodup b
    · rw [heq]
      exact (hl.hashNodup b).erase c
  · obtain ⟨hrc, hr⟩ := (hhash b r).mp hr
    obtain ⟨hr', hb⟩ := hl.hash b r hr
    exact ⟨(hmem r).mpr ⟨hrc, hr'⟩, (congrArg pidHashfn (hpid r)).trans hb⟩
  · change t.Unborn none r at hr
    rw [hunborn] at hr
    obtain ⟨hnot, hidle', hchild⟩ := hl.unborn r hr
    have hrq : r ≠ q := by
      rintro rfl
      exact hq.elim hidle' hnot
    refine ⟨fun hr' ↦ hnot ((hmem r).mp hr').2, ?_, (hcptr r hrq).trans hchild⟩
    change r ≠ t.idleproc
    rw [hf]
    exact hidle'
  · change linking? (t.code r) = some r' at hr
    rw [hcode] at hr
    exact (hparent r').trans (hl.maker r r' hr)
  · cases hr
  · change (t.proc r).state = .zombie at hr
    rw [hstate] at hr
    have hrq : r ≠ q := by
      rintro rfl
      exact hk.childless (htold r hr) hc hpar
    exact .inl ((hcptr r hrq).trans (htold r hr))

theorem InitOk.reap (h : s.InitOk) {c : ℕ} (hne : c ≠ s.initproc) (hnd : s.procList.Nodup) :
    (((s.unhashProc c).removeLinks c).kfreeProc c).InitOk := by
  obtain ⟨f, hf⟩ := (s.unhashProc c).removeLinks_run c
  have hparent := (s.unhashProc c).unlink_field (g := Proc.parent) (fun _ _ ↦ rfl)
    (fun _ _ ↦ rfl) (fun _ _ ↦ rfl) c
  have hstate := (s.unhashProc c).unlink_field (g := Proc.state) (fun _ _ ↦ rfl)
    (fun _ _ ↦ rfl) (fun _ _ ↦ rfl) c
  set t := (s.unhashProc c).removeLinks c with ht
  have hmem : ∀ r, r ∈ t.procList ↔ r ≠ c ∧ r ∈ s.procList := fun r ↦ by
    rw [show t.procList = s.procList.erase c from by rw [hf]; rfl, hnd.mem_erase_iff]
  have hinit : t.initproc = s.initproc := by rw [hf]; rfl
  have hcode : t.code = s.code := by rw [hf]; rfl
  refine ⟨?_, fun hz ↦ ?_, fun q code hq ↦ ?_, ?_⟩
  · change t.initproc ∈ t.procList
    rw [hmem, hinit]
    exact ⟨hne.symm, h.mem⟩
  · change (t.proc t.initproc).state = .zombie at hz
    rw [hinit] at hz
    exact h.alive ((hstate _).symm.trans hz)
  · change q ≠ t.initproc
    rw [hinit]
    refine h.exits q code ?_
    rw [← hcode]
    exact hq
  · obtain ⟨rank, hrank⟩ := h.rooted
    refine ⟨rank, fun r hr ↦ ?_⟩
    change (r ≠ t.initproc → rank t.initproc < rank r) ∧
      ∀ q, (t.proc r).parent = some q → rank q < rank r
    obtain ⟨h₁, h₂⟩ := hrank r ((hmem r).mp hr).2
    rw [hinit]
    exact ⟨h₁, fun q hq ↦ h₂ q ((hparent r).symm.trans hq)⟩

end Kernel

end Ucore
