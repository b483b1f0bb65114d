import Ucore.Proc.FamilyRuns

/-!
# Exiting processes, and the process tree in every run

The end of `do_exit` gives the children of the current process to `initproc`, one after the other.
With it every section keeps the process tree in order, and so does every run from boot on
(`processTree_ok`).

## The children of an exiting process

While the loop runs, the own list of children has lost its head, and what is left of it is not a
list that begins with a first child. `Giving` is the family of lists in that state: the list of the
current process is one whose first member may have anything before it, all others are whole. One
round takes the child to the front of the list of `initproc`, and after the last one the family is
whole again. `Leaving` is what else the loop relies on: the process is neither the idle process nor
`initproc`, and every other zombie has given its children away already.

## From boot on

`proc_init` makes the idle process, which is on no list, and calls `do_fork` for `initproc`; then
`initproc` is the only process listed (`Single`). From there on a section keeps `TreeKept`, or it is
the part of `do_fork` that has a process structure to link (`Making`).
-/

namespace Ucore

open Prog

namespace Kernel

variable {s t : Kernel} {x : Option ℕ} {p : ℕ} {kids : ℕ → List ℕ}

/-! ## The orphans of a process -/

/-- The lists of children while the current process gives its own away: what is left of its list
has lost its head. -/
structure Giving (s : Kernel) (kids : ℕ → List ℕ) : Prop where
  first : ∀ q, (s.proc q).cptr = (kids q).head?
  links : ∀ q, q ≠ s.current →
    Siblings (fun p ↦ (s.proc p).optr) (fun p ↦ (s.proc p).yptr) none (kids q)
  own : ∃ v, Siblings (fun p ↦ (s.proc p).optr) (fun p ↦ (s.proc p).yptr) v (kids s.current)
  nodup : ∀ q, (kids q).Nodup
  mem : ∀ q p, p ∈ kids q ↔ p ∈ s.procList ∧ (s.proc p).parent = some q

/-- What else holds then. -/
structure Leaving (s : Kernel) : Prop where
  listing : s.Listing none
  init : s.InitOk
  told : ∀ p, p ≠ s.current → (s.proc p).state = .zombie → (s.proc p).cptr = none
  ne_idle : s.current ≠ s.idleproc
  ne_init : s.current ≠ s.initproc

theorem Giving.congr (h : s.Giving kids) (hsame : SameKin s t) : t.Giving kids where
  first q := (hsame.cptr q).trans (h.first q)
  links q hq := (h.links q (hsame.current ▸ hq)).congr (fun x _ ↦ hsame.optr x)
    fun x _ ↦ hsame.yptr x
  own := by
    obtain ⟨v, hv⟩ := h.own
    rw [hsame.current]
    exact ⟨v, hv.congr (fun x _ ↦ hsame.optr x) fun x _ ↦ hsame.yptr x⟩
  nodup := h.nodup
  mem q p := by rw [hsame.procList, hsame.parent, h.mem]

theorem Leaving.congr (h : s.Leaving) (hsame : SameKin s t) : t.Leaving where
  listing := h.listing.congr hsame
  init := h.init.congr hsame
  told p hp hz := by
    rw [hsame.current] at hp
    rw [hsame.cptr]
    exact h.told p hp (hsame.zombie p hz)
  ne_idle := by
    rw [hsame.current, hsame.idleproc]
    exact h.ne_idle
  ne_init := by
    rw [hsame.current, hsame.initproc]
    exact h.ne_init

/-- The assignments of `do_exit` for one child. -/
def handOver (s : Kernel) (p : ℕ) : Kernel :=
  ((s.setProc s.current fun q ↦ { q with cptr := (s.proc p).optr }).adopt p s.initproc).setProc p
    fun q ↦ { q with parent := some s.initproc }

/-- `reparent` hands the child over and then looks whether `initproc` waits for it. -/
theorem run_reparent (p : ℕ) (s : Kernel) : (Ucore.reparent p).run s =
    (wakeupIf ((s.proc p).state = .zombie ∧ (s.proc s.initproc).waitState = wtChild)
      s.initproc).run (s.handOver p) := by
  rw [Ucore.reparent, get_bind_run, modify_bind_run, modify_bind_run, adopt_initproc]
  rfl

theorem handOver_eq (s : Kernel) (p : ℕ) : ∃ f, s.handOver p = { s with proc := f } := by
  obtain ⟨f, hf⟩ := (s.setProc s.current fun q ↦ { q with cptr := (s.proc p).optr }).adopt_eq p
    s.initproc
  refine ⟨(s.handOver p).proc, ?_⟩
  rw [handOver, hf]
  rfl

theorem handOver_field {α : Type} {g : Proc → α} (hy : ∀ r v, g { r with yptr := v } = g r)
    (ho : ∀ r v, g { r with optr := v } = g r) (hc : ∀ r v, g { r with cptr := v } = g r)
    (hp : ∀ r v, g { r with parent := v } = g r) (s : Kernel) (p x : ℕ) :
    g ((s.handOver p).proc x) = g (s.proc x) := by
  rw [handOver, setProc_field _ p fun r ↦ hp r _, adopt_field _ hy ho hc,
    setProc_field _ s.current fun r ↦ hc r _]

theorem handOver_parent (s : Kernel) (p x : ℕ) : ((s.handOver p).proc x).parent =
    if x = p then some s.initproc else (s.proc x).parent := by
  rw [handOver, setProc_apply]
  by_cases hx : x = p
  · rw [if_pos hx, if_pos hx]
  · rw [if_neg hx, if_neg hx, adopt_field (g := Proc.parent) _ (fun _ _ ↦ rfl) (fun _ _ ↦ rfl)
      fun _ _ ↦ rfl]
    exact s.setProc_field (g := Proc.parent) s.current
      (f := fun q ↦ { q with cptr := (s.proc p).optr }) (fun _ ↦ rfl) x

theorem handOver_cptr (s : Kernel) (p x : ℕ) : ((s.handOver p).proc x).cptr =
    if x = s.initproc then some p else if x = s.current then (s.proc p).optr
      else (s.proc x).cptr := by
  have hset := ((s.setProc s.current fun q ↦ { q with cptr := (s.proc p).optr }).adopt p
    s.initproc).setProc_field (g := Proc.cptr) p
      (f := fun q ↦ { q with parent := some s.initproc }) (fun _ ↦ rfl) x
  rw [handOver, hset, adopt_cptr, assignCptr_cptr]

/-- The first child goes from the list of the current process to that of `initproc`. -/
theorem Giving.handOver (h : s.Giving kids) (hne : s.current ≠ s.initproc) {l : List ℕ}
    (hk : kids s.current = p :: l) : (s.handOver p).Giving fun r ↦
      if r = s.initproc then p :: kids s.initproc else if r = s.current then l else kids r := by
  have hmem : p ∈ kids s.current := by
    rw [hk]
    exact List.mem_cons_self
  obtain ⟨hp, hpar⟩ := (h.mem s.current p).mp hmem
  have hnot : ∀ r, r ≠ s.current → p ∉ kids r := fun r hr hpr ↦
    hr (Option.some.inj (((h.mem r p).mp hpr).2.symm.trans hpar))
  have hunique : ∀ r y, y ∈ kids r → y ∈ kids s.initproc → r = s.initproc := fun r y hr hi ↦
    Option.some.inj (((h.mem r y).mp hr).2.symm.trans ((h.mem _ y).mp hi).2)
  obtain ⟨v, hv⟩ := h.own
  rw [hk] at hv
  have hpl : p ∉ l := (List.nodup_cons.mp (hk ▸ h.nodup s.current)).1
  -- `handOver` takes `p` off the list of the current process, and only then joins it to the other
  set u := s.setProc s.current fun q ↦ { q with cptr := (s.proc p).optr } with hu
  have huo : ∀ y, (u.proc y).optr = (s.proc y).optr := fun y ↦ s.assignCptr_optr _ _ y
  have huy : ∀ y, (u.proc y).yptr = (s.proc y).yptr := fun y ↦ s.assignCptr_yptr _ _ y
  have huc : (u.proc s.initproc).cptr = (kids s.initproc).head? := by
    rw [hu, assignCptr_cptr, if_neg hne.symm, h.first]
  -- the one next to which `p` is put is a child of `initproc`, so no other list notices
  have hhead : ∀ r, r ≠ s.initproc → ∀ y, (u.proc s.initproc).cptr = some y → y ∉ kids r := by
    intro r hr y hy hyr
    rw [huc] at hy
    exact hr (hunique r y hyr (List.mem_of_mem_head? (Option.mem_def.mpr hy)))
  have hfin : ∀ {v : Option ℕ} {m : List ℕ},
      Siblings (fun x ↦ ((u.adopt p s.initproc).proc x).optr)
        (fun x ↦ ((u.adopt p s.initproc).proc x).yptr) v m →
      Siblings (fun x ↦ ((s.handOver p).proc x).optr) (fun x ↦ ((s.handOver p).proc x).yptr) v m :=
    fun hm ↦ hm.congr
      (fun y _ ↦ (u.adopt p s.initproc).setProc_field (g := Proc.optr) p
        (f := fun q ↦ { q with parent := some s.initproc }) (fun _ ↦ rfl) y)
      fun y _ ↦ (u.adopt p s.initproc).setProc_field (g := Proc.yptr) p
        (f := fun q ↦ { q with parent := some s.initproc }) (fun _ ↦ rfl) y
  obtain ⟨f, hf⟩ := s.handOver_eq p
  have hcur : (s.handOver p).current = s.current := by rw [hf]
  refine ⟨fun r ↦ ?_, fun r hr ↦ ?_, ⟨some p, ?_⟩, fun r ↦ ?_, fun r y ↦ ?_⟩
  · rw [handOver_cptr]
    by_cases hri : r = s.initproc
    · rw [if_pos hri, if_pos hri, List.head?_cons]
    · rw [if_neg hri, if_neg hri]
      by_cases hrc : r = s.current
      · rw [if_pos hrc, if_pos hrc]
        exact hv.2.1
      · rw [if_neg hrc, if_neg hrc, h.first]
  · rw [hcur] at hr
    by_cases hri : r = s.initproc
    · rw [if_pos hri]
      exact hfin (adopt_links huc ((h.links _ hne.symm).congr (fun y _ ↦ huo y) fun y _ ↦ huy y)
        (h.nodup _) (hnot _ hne.symm))
    · rw [if_neg hri, if_neg hr]
      exact hfin (adopt_links_of_ne ((h.links r hr).congr (fun y _ ↦ huo y) fun y _ ↦ huy y)
        (hnot r hr) (hhead r hri))
  · rw [hcur, if_neg hne, if_pos rfl]
    refine hfin (adopt_links_of_ne (hv.2.2.congr (fun y _ ↦ huo y) fun y _ ↦ huy y) hpl
      fun y hy hyl ↦ hhead _ hne y hy ?_)
    rw [hk]
    exact List.mem_cons_of_mem p hyl
  · split_ifs
    · exact List.nodup_cons.mpr ⟨hnot _ hne.symm, h.nodup _⟩
    · exact (List.nodup_cons.mp (hk ▸ h.nodup s.current)).2
    · exact h.nodup r
  · have hlist : (s.handOver p).procList = s.procList := by rw [hf]
    rw [hlist, handOver_parent]
    by_cases hyp : y = p
    · rw [hyp, if_pos rfl, Option.some_inj]
      by_cases hri : r = s.initproc
      · rw [if_pos hri]
        exact ⟨fun _ ↦ ⟨hp, hri.symm⟩, fun _ ↦ List.mem_cons_self⟩
      · rw [if_neg hri]
        refine ⟨fun hc ↦ ?_, fun hc ↦ absurd hc.2.symm hri⟩
        by_cases hrc : r = s.current
        · rw [if_pos hrc] at hc
          exact absurd hc hpl
        · rw [if_neg hrc] at hc
          exact absurd hc (hnot r hrc)
    · rw [if_neg hyp]
      by_cases hri : r = s.initproc
      · rw [if_pos hri, List.mem_cons, or_iff_right hyp, h.mem, hri]
      · rw [if_neg hri]
        by_cases hrc : r = s.current
        · rw [if_pos hrc, hrc, ← h.mem, hk, List.mem_cons, or_iff_right hyp]
        · rw [if_neg hrc, h.mem]

theorem Leaving.handOver (h : s.Leaving) (hp : p ∈ s.procList)
    (hpar : (s.proc p).parent = some s.current) : (s.handOver p).Leaving := by
  have hl := h.listing
  obtain ⟨rank, hrank⟩ := h.init.rooted
  have hcur : s.current ∈ s.procList := by
    obtain ⟨q, hq, hqs⟩ := hl.parent p hp
    rw [hpar] at hq
    obtain rfl := Option.some.inj hq
    exact hqs.resolve_left h.ne_idle
  -- `initproc` is above the current process, and so it is none of its children
  have hpi : p ≠ s.initproc := by
    rintro rfl
    exact absurd ((hrank _ hcur).1 h.ne_init) ((hrank _ hp).2 _ hpar).asymm
  have hstate := handOver_field (g := Proc.state) (fun _ _ ↦ rfl) (fun _ _ ↦ rfl)
    (fun _ _ ↦ rfl) (fun _ _ ↦ rfl) s p
  have hpid := handOver_field (g := Proc.pid) (fun _ _ ↦ rfl) (fun _ _ ↦ rfl)
    (fun _ _ ↦ rfl) (fun _ _ ↦ rfl) s p
  have hparent : ∀ r, r ≠ p → ((s.handOver p).proc r).parent = (s.proc r).parent := fun r hr ↦ by
    rw [handOver_parent, if_neg hr]
  have hcptr : ∀ r, r ≠ s.initproc → r ≠ s.current →
      ((s.handOver p).proc r).cptr = (s.proc r).cptr := fun r hi hc ↦ by
    rw [handOver_cptr, if_neg hi, if_neg hc]
  -- the parent of `p` is the only one that changes
  have hchild : ((s.handOver p).proc p).parent = some s.initproc := by
    rw [handOver_parent, if_pos rfl]
  obtain ⟨f, hf⟩ := s.handOver_eq p
  have hunborn : (s.handOver p).Unborn none = s.Unborn none := by
    rw [hf]
    rfl
  have hlist : (s.handOver p).procList = s.procList := by rw [hf]
  have hidle : (s.handOver p).idleproc = s.idleproc := by rw [hf]
  have hinit : (s.handOver p).initproc = s.initproc := by rw [hf]
  have hhash : (s.handOver p).hashList = s.hashList := by rw [hf]
  refine ⟨⟨?_, ?_, ?_, fun q ↦ ?_, fun q hq ↦ ?_, fun b ↦ ?_, fun b q hq ↦ ?_, fun q hq ↦ ?_,
    fun q r hr ↦ ?_, fun q hq ↦ ?_⟩, ⟨?_, fun hz ↦ ?_, fun q code hq ↦ ?_, ⟨rank, fun q hq ↦ ?_⟩⟩,
    fun q hq hz ↦ ?_, ?_, ?_⟩
  · rw [hlist]
    exact hl.nodup
  · rw [hf]
    exact hl.num
  · rw [hlist, hidle]
    exact hl.idle
  · rw [hlist, hidle, hunborn, hf]
    exact hl.live q
  · rw [hlist] at hq
    rw [hidle, hlist]
    by_cases hqp : q = p
    · exact ⟨s.initproc, hqp ▸ hchild, .inr h.init.mem⟩
    · rw [hparent q hqp]
      exact hl.parent q hq
  · rw [hhash]
    exact hl.hashNodup b
  · rw [hhash] at hq
    rw [hlist, hpid]
    exact hl.hash b q hq
  · rw [hunborn] at hq
    obtain ⟨hnot, hqi, hc⟩ := hl.unborn q hq
    have hqinit : q ≠ s.initproc := by
      rintro rfl
      exact hnot h.init.mem
    have hqcur : q ≠ s.current := by
      rintro rfl
      exact hnot hcur
    rw [hlist, hidle, hcptr q hqinit hqcur]
    exact ⟨hnot, hqi, hc⟩
  · have hr' : linking? (s.code q) = some r := by
      rw [hf] at hr
      exact hr
    have hrp : r ≠ p := by
      rintro rfl
      exact (hl.unborn r (.inl ⟨q, hr'⟩)).1 hp
    rw [hparent r hrp]
    exact hl.maker q r hr'
  · cases hq
  · rw [hinit, hlist]
    exact h.init.mem
  · rw [hinit, hstate] at hz
    exact h.init.alive hz
  · rw [hinit]
    refine h.init.exits q code ?_
    rw [hf] at hq
    exact hq
  · rw [hlist] at hq
    rw [hinit]
    refine ⟨(hrank q hq).1, fun r hr ↦ ?_⟩
    by_cases hqp : q = p
    · rw [hqp, hchild] at hr
      rw [← Option.some.inj hr, hqp]
      exact (hrank p hp).1 hpi
    · rw [hparent q hqp] at hr
      exact (hrank q hq).2 r hr
  · have hq' : q ≠ s.current := by
      rw [hf] at hq
      exact hq
    rw [hstate] at hz
    have hqi : q ≠ s.initproc := by
      rintro rfl
      exact h.init.alive hz
    rw [hcptr q hqi hq']
    exact h.told q hq' hz
  · rw [hidle, hf]
    exact h.ne_idle
  · rw [hinit, hf]
    exact h.ne_init

/-- One turn of the loop. -/
theorem Leaving.reparent (h : s.Leaving) (hg : s.Giving kids) {l : List ℕ}
    (hk : kids s.current = p :: l) : ((Ucore.reparent p).run s).Sat
      (fun _ t ↦ t.Leaving ∧ ∃ kids', t.Giving kids' ∧ kids' t.current = l) fun _ _ ↦ False := by
  have hmem : p ∈ kids s.current := by
    rw [hk]
    exact List.mem_cons_self
  obtain ⟨hp, hpar⟩ := (hg.mem s.current p).mp hmem
  have hleave := h.handOver hp hpar
  have hgive := hg.handOver h.ne_init hk
  rw [run_reparent]
  refine (SameKin.wakeupIf_sat _ _ (s.handOver p)).imp (fun _ t hsame ↦ ?_) fun _ _ hf ↦ hf
  refine ⟨hleave.congr hsame, _, hgive.congr hsame, ?_⟩
  obtain ⟨f, hf⟩ := s.handOver_eq p
  have hcur : t.current = s.current := by
    rw [hsame.current, hf]
  rw [hcur, if_neg h.ne_init, if_pos rfl]

/-- The loop: in the end the current process has no children. -/
theorem Leaving.reparentLoop {fuel : ℕ} (h : s.Leaving) (hg : s.Giving kids)
    (hfuel : (kids s.current).length ≤ fuel) : ((Ucore.reparentLoop fuel).run s).Sat
      (fun _ t ↦ t.Leaving ∧ ∃ kids', t.Giving kids' ∧ kids' t.current = []) fun _ _ ↦ False := by
  induction fuel generalizing s kids with
  | zero => exact ⟨h, kids, hg, List.eq_nil_of_length_eq_zero (Nat.le_zero.mp hfuel)⟩
  | succ fuel ih =>
    rw [Ucore.reparentLoop, get_bind_run, hg.first]
    cases hk : kids s.current with
    | nil => exact ⟨h, kids, hg, hk⟩
    | cons p l =>
      refine sat_bind (h.reparent hg hk) fun _ t ht ↦ ?_
      obtain ⟨hleave, kids', hgive, hl⟩ := ht
      refine ih hleave hgive ?_
      rw [hl]
      rw [hk, List.length_cons] at hfuel
      exact Nat.le_of_succ_le_succ hfuel

/-- There are enough turns for all children. -/
theorem Giving.length_le (h : s.Giving kids) (hl : s.Listing x) (q : ℕ) :
    (kids q).length ≤ s.live.card := by
  rw [← List.toFinset_card_of_nodup (h.nodup q)]
  refine Finset.card_le_card fun y hy ↦ ?_
  exact (hl.live y).mpr (.inr (.inl ((h.mem q y).mp (List.mem_toFinset.mp hy)).1))

/-- When the children are given away the tree is in order again. -/
theorem Leaving.treeOk (h : s.Leaving) (hg : s.Giving kids) (hnil : kids s.current = []) :
    s.TreeOk none where
  kids := by
    refine ⟨kids, hg.first, fun q ↦ ?_, hg.nodup, hg.mem⟩
    rcases eq_or_ne q s.current with rfl | hne
    · rw [hnil]
      exact Siblings.nil
    · exact hg.links q hne
  listing := h.listing
  told p hp := by
    refine .inl ?_
    rcases eq_or_ne p s.current with rfl | hne
    · rw [hg.first, hnil, List.head?_nil]
    · exact h.told p hne hp

/-- What every section keeps. -/
def TreeKept (s : Kernel) : Prop := s.TreeOk none ∧ s.InitOk

/-- The part of `do_exit` in which interrupts are disabled. -/
theorem Leaving.exitTell (h : s.Leaving) (hg : s.Giving kids) :
    (Ucore.exitTell.run s).Sat (fun _ t ↦ t.TreeKept) fun _ _ ↦ False := by
  rw [Ucore.exitTell, get_bind_run]
  cases (s.proc s.current).parent with
  | none => trivial
  | some q =>
    refine sat_bind (SameKin.wakeupIf_sat _ q s) fun _ t ht ↦ ?_
    have hgive := hg.congr ht
    have hlen := hgive.length_le (h.congr ht).listing t.current
    rw [ht.live] at hlen
    refine sat_bind ((h.congr ht).reparentLoop hgive hlen) fun _ u hu ↦ ?_
    obtain ⟨hleave, kids', hgive', hnil⟩ := hu
    exact ⟨hleave.treeOk hgive' hnil, hleave.init⟩

/-! ## The other sections -/

/-- Sections are put in front that link nothing. -/
theorem TreeOk.push (h : s.TreeOk none) (hno : ∀ p, s.code p ≠ telling) {l : List Section}
    (hl : ∀ i ∈ l, i.linking? = none) : (s.push l).TreeOk none := by
  have hlink : ∀ q, linking? ((s.push l).code q) = linking? (s.code q) := by
    intro q
    rcases eq_or_ne q s.current with rfl | hne
    · rw [Kernel.push, setCode_self, linking?_append hl]
    · rw [Kernel.push, setCode_of_ne s hne]
  have hunborn : (s.push l).Unborn none = s.Unborn none := by
    funext p
    simp only [Unborn, hlink]
  obtain ⟨kids, hk⟩ := h.kids
  have hls := h.listing
  refine ⟨⟨kids, hk.congr rfl (fun _ ↦ rfl) (fun _ ↦ rfl) (fun _ ↦ rfl) fun _ ↦ rfl⟩,
    ⟨hls.nodup, hls.num, hls.idle, fun q ↦ ?_, hls.parent, hls.hashNodup, hls.hash, fun q hq ↦ ?_,
      fun q r hr ↦ ?_, fun q hq ↦ ?_⟩, fun q hq ↦ .inl ?_⟩
  · rw [hunborn]
    exact hls.live q
  · rw [hunborn] at hq
    exact hls.unborn q hq
  · rw [hlink] at hr
    exact hls.maker q r hr
  · cases hq
  · exact (h.told q hq).resolve_right (hno q)

theorem TreeKept.push (h : s.TreeKept) (hno : ∀ p, s.code p ≠ telling) {l : List Section}
    (hl : ∀ i ∈ l, i.linking? = none) (hz : ∀ code, .exitZombie code ∉ l) : (s.push l).TreeKept :=
  ⟨TreeOk.push h.1 hno hl, h.2.push fun code hmem ↦ absurd hmem (hz code)⟩

/-- Another process gets the processor. -/
theorem TreeKept.setCurrent (h : s.TreeKept) (p : ℕ) (rq : RunQueue) :
    (s.setCurrent p rq).TreeKept := by
  obtain ⟨⟨⟨kids, hk⟩, hl, htold⟩, hi⟩ := h
  refine ⟨⟨⟨kids, hk.congr rfl (fun _ ↦ rfl) (fun _ ↦ rfl) (fun _ ↦ rfl) fun _ ↦ rfl⟩,
    ⟨hl.nodup, hl.num, hl.idle, hl.live, hl.parent, hl.hashNodup, hl.hash, hl.unborn, hl.maker,
      fun q hq ↦ ?_⟩, htold⟩, hi.mem, hi.alive, hi.exits, hi.rooted⟩
  cases hq

theorem TreeKept.congr (h : s.TreeKept) (hsame : SameKin s t)
    (htell : ∀ p, s.code p = telling → t.code p = telling) : t.TreeKept :=
  ⟨h.1.congr hsame htell, h.2.congr hsame⟩

theorem TreeKept.schedule (h : s.TreeKept) (hno : ∀ p, s.code p ≠ telling) :
    s.schedule.TreeKept := by
  obtain ⟨t, p, rq, hsame, heq⟩ := SameKin.schedule s
  have hcode : ∀ p, s.code p = telling → t.code p = telling := fun p hp ↦ absurd hp (hno p)
  rw [heq]
  exact (h.congr hsame hcode).setCurrent _ _

/-- A process becomes a zombie. -/
theorem TreeOk.exitZombie (h : s.TreeOk none) (hno : ∀ p, s.code p ≠ telling)
    (hnil : s.code s.current = []) (code : ℤ) :
    ((s.setProc s.current fun q ↦ { q with state := .zombie, exitCode := code }).push
      telling).TreeOk none := by
  set u := s.push telling with hu
  have htree : u.TreeOk none := h.push hno (by simp [telling, Section.linking?])
  have heq : (s.setProc s.current fun q ↦ { q with state := .zombie, exitCode := code }).push
      telling = u.setProc s.current fun q ↦ { q with state := .zombie, exitCode := code } := rfl
  have hself : u.code s.current = telling := by
    rw [hu, Kernel.push, setCode_self, hnil, List.append_nil]
  rw [heq]
  have hpar := u.setProc_field (g := Proc.parent) s.current
    (f := fun q ↦ { q with state := .zombie, exitCode := code }) fun _ ↦ rfl
  have hc := u.setProc_field (g := Proc.cptr) s.current
    (f := fun q ↦ { q with state := .zombie, exitCode := code }) fun _ ↦ rfl
  have hy := u.setProc_field (g := Proc.yptr) s.current
    (f := fun q ↦ { q with state := .zombie, exitCode := code }) fun _ ↦ rfl
  have ho := u.setProc_field (g := Proc.optr) s.current
    (f := fun q ↦ { q with state := .zombie, exitCode := code }) fun _ ↦ rfl
  have hpid := u.setProc_field (g := Proc.pid) s.current
    (f := fun q ↦ { q with state := .zombie, exitCode := code }) fun _ ↦ rfl
  obtain ⟨⟨kids, hk⟩, hl, htold⟩ := htree
  refine ⟨⟨kids, hk.congr rfl hpar hc hy ho⟩, ⟨hl.nodup, hl.num, hl.idle, hl.live,
    fun q hq ↦ ?_, hl.hashNodup, fun b q hq ↦ ?_, fun q hq ↦ ?_, fun q r hr ↦ ?_, fun q hq ↦ ?_⟩,
    fun q hq ↦ ?_⟩
  · rw [hpar]
    exact hl.parent q hq
  · rw [hpid]
    exact hl.hash b q hq
  · rw [hc]
    exact hl.unborn q hq
  · rw [hpar]
    exact hl.maker q r hr
  · cases hq
  · rcases eq_or_ne q s.current with rfl | hne
    · exact .inr hself
    · rw [setProc_of_ne u hne] at hq ⊢
      exact htold q hq

theorem InitOk.exitZombie (h : s.InitOk) (hne : s.current ≠ s.initproc) (code : ℤ) :
    ((s.setProc s.current fun q ↦ { q with state := .zombie, exitCode := code }).push
      telling).InitOk := by
  have hpush : (s.push telling).InitOk := h.push (by simp [telling])
  have hpar := (s.push telling).setProc_field (g := Proc.parent) s.current
    (f := fun q ↦ { q with state := .zombie, exitCode := code }) fun _ ↦ rfl
  obtain ⟨rank, hrank⟩ := hpush.rooted
  have hself : (s.setProc s.current fun q ↦
      { q with state := .zombie, exitCode := code }).proc s.initproc = s.proc s.initproc :=
    setProc_of_ne s hne.symm _
  refine ⟨hpush.mem, fun hz ↦ h.alive ((congrArg Proc.state hself).symm.trans hz), hpush.exits,
    rank, fun q hq ↦ ?_⟩
  exact ⟨(hrank q hq).1, fun r hr ↦ (hrank q hq).2 r ((hpar q).symm.trans hr)⟩

/-- A process in use that is not being made is on `proc_list`. -/
theorem RunOk.listed (h : s.RunOk) (hl : s.Listing none) (hp : p ∈ s.live) (hidle : p ≠ s.idleproc)
    (hst : (s.proc p).state ≠ .uninit) : p ∈ s.procList := by
  rcases (hl.live p).mp hp with hc | hc | ⟨q, hq⟩ | hc
  · exact absurd hc hidle
  · exact hc
  · exact absurd (h.sched.embryo _ q (embryo?_of_linking? hq)).2 hst
  · cases hc

/-- Giving memory back changes nothing else. -/
theorem SameKin.putKstack (s : Kernel) (p : ℕ) :
    SameKin (s.kfreeProc p) ((s.putKstack p).kfreeProc p) := by
  rw [Kernel.putKstack]
  cases (s.proc p).kstack with
  | none => exact SameKin.refl _
  | some page =>
    change SameKin (s.kfreeProc p) ((s.givePages (kstackPages page)).kfreeProc p)
    exact SameKin.of_proc rfl rfl rfl rfl rfl rfl rfl rfl ⟨rfl, rfl⟩ rfl

theorem TreeOk.cleanup (h : s.TreeOk (some p)) (hi : s.InitOk) (hno : ∀ p, s.code p ≠ telling) :
    ((badForkCleanupKstack p).run s).Sat (fun _ t ↦ t.TreeKept) fun _ _ ↦ False :=
  TreeKept.congr ⟨h.kfreeProc, hi.kfreeProc p⟩ (SameKin.putKstack s p) fun q hq ↦
    absurd hq (hno q)

/-- What holds while a section of `do_fork` has a process structure to link. -/
structure Making (s : Kernel) (p : ℕ) : Prop where
  tree : s.TreeOk (some p)
  init : s.InitOk
  quiet : ∀ p, s.code p ≠ telling
  nil : s.code s.current = []

theorem Making.congr (h : s.Making p) (hsame : SameKin s t) (hcode : t.code = s.code) :
    t.Making p where
  tree := h.tree.congr hsame fun q hq ↦ absurd hq (h.quiet q)
  init := h.init.congr hsame
  quiet q := by
    rw [hcode]
    exact h.quiet q
  nil := by
    rw [hcode, hsame.current]
    exact h.nil

theorem Making.push (h : s.Making p) {l : List Section} {i : Section} (hi : i.linking? = some p)
    (hl : ∀ code, .exitZombie code ∉ l) : (s.push (l ++ [i])).TreeKept := by
  refine ⟨h.tree.push_linking h.quiet h.nil hi, h.init.push fun code hmem ↦ ?_⟩
  rcases List.mem_append.mp hmem with hmem | hmem
  · exact absurd hmem (hl code)
  · rw [List.mem_singleton] at hmem
    rw [← hmem] at hi
    cases hi

theorem Making.cleanup (h : s.Making p) :
    ((badForkCleanupKstack p).run s).Sat (fun _ t ↦ t.TreeKept) fun _ _ ↦ False :=
  h.tree.cleanup h.init h.quiet

/-- `do_fork` up to `copy_mm`. -/
theorem forkAlloc_kin (mem : ForkMem) (s : Kernel) : ((Ucore.forkAlloc mem).run s).Sat
    (fun p t ↦ mem.proc.addr = some p ∧ s.nrProcess < maxProcess ∧ ∃ u, SameKin s u ∧
      u.code = s.code ∧ SameKin (u.embryo p) t ∧ t.code = (u.embryo p).code)
    fun _ t ↦ SameKin s t ∨ ∃ p u, mem.proc.addr = some p ∧ s.nrProcess < maxProcess ∧
      SameKin s u ∧ u.code = s.code ∧ SameKin ((u.embryo p).kfreeProc p) t := by
  rw [Ucore.forkAlloc, get_bind_run]
  split_ifs with hmax
  · exact .inl (.refl s)
  · rw [modify_bind_run]
    cases hp : mem.proc.addr with
    | none => exact .inl (SameKin.growArena s mem.proc)
    | some p =>
      dsimp only
      rw [modify_bind_run, get_bind_run]
      refine sat_assert_bind fun _ ↦ ?_
      cases mem.kstack with
      | none => exact .inr ⟨p, _, rfl, not_le.mp hmax, SameKin.growArena s mem.proc, rfl, .refl _⟩
      | some page =>
        refine ⟨rfl, not_le.mp hmax, _, SameKin.growArena s mem.proc, rfl, ?_, rfl⟩
        exact (SameKin.setMem _ _).trans (SameKin.setProc _ p (fun _ ↦ rfl) (fun _ ↦ rfl)
          (fun _ ↦ rfl) (fun _ ↦ rfl) (fun _ ↦ rfl) id .inl)

/-- `copy_mm` changes what no process has still to do. -/
theorem copyMmAlloc_code (flags : BitVec 32) (p : ℕ) (mem : ForkMem) :
    Moves (Same Kernel.code) (Ucore.copyMmAlloc flags p mem) := by
  refine .bind .get fun s ↦ ?_
  cases (s.proc s.current).mm with
  | none => exact .pure _
  | some oldmm =>
    refine .ite (fun _ ↦ .bind (.modify fun s ↦ rfl) fun _ ↦ .pure _) fun _ ↦ ?_
    refine .bind (.modify fun s ↦ rfl) fun _ ↦ ?_
    cases mem.mm.addr with
    | none => exact .fail _
    | some m =>
      cases mem.pgdir with
      | none => exact .fail _
      | some pgdir => exact .bind (.modify fun s ↦ rfl) fun _ ↦ .pure _

theorem copyMmGood_code (p m : ℕ) (mem : ForkMem) :
    Moves (Same Kernel.code) (Ucore.copyMmGood p m mem) :=
  .ite (fun _ ↦ .modify fun _ ↦ rfl) fun _ ↦ .bind (.modify fun _ ↦ rfl) fun _ ↦ .fail _

theorem dropMm_code : Moves (Same Kernel.code) Ucore.dropMm := by
  refine .bind .get fun s ↦ ?_
  cases (s.proc s.current).mm with
  | none => exact .pure _
  | some m =>
    refine .bind (.modify fun _ ↦ rfl) fun _ ↦ .bind .get fun _ ↦ .bind (.modify fun u ↦ ?_)
      fun _ ↦ .bind (.modify fun _ ↦ rfl) fun _ ↦ .pure _
    split_ifs <;> rfl

/-- Two things that a routine does from any state. -/
theorem moves_and {α : Type} {R R' : Kernel → Kernel → Prop} {m : KProg α} (hm : Moves R m)
    (hm' : Moves R' m) : Moves (fun s t ↦ R s t ∧ R' s t) m := by
  intro s
  have h := hm s
  have h' := hm' s
  cases hr : m.run s with
  | ok a t =>
    rw [hr] at h h'
    exact ⟨h, h'⟩
  | error e t =>
    rw [hr] at h h'
    exact ⟨h, h'⟩
  | panic => trivial

/-- The part of `do_fork` in which the process structure is made. -/
theorem TreeKept.forkBegin (h : s.TreeKept) (hno : ∀ p, s.code p ≠ telling)
    (hnil : s.code s.current = []) (flags : BitVec 32) (mem : ForkMem)
    (hfresh : ∀ p, mem.proc.addr = some p → p ∉ s.live ∧ linking? (s.code p) = none ∧
      p ≠ s.current) :
    ((Ucore.forkBegin flags mem).run s).Sat (fun _ t ↦ t.TreeKept) fun _ t ↦ t.TreeKept := by
  have hembryo : ∀ p u, mem.proc.addr = some p → SameKin s u → u.code = s.code →
      (u.embryo p).Making p := by
    intro p u hp hsame hcode
    obtain ⟨hlive, hdead, hcur⟩ := hfresh p hp
    have hlive' : p ∉ u.live := by
      rw [hsame.live]
      exact hlive
    have hcodes : ∀ q, (u.embryo p).code q = if q = p then [] else s.code q := by
      intro q
      by_cases hq : q = p
      · rw [if_pos hq, hq, embryo_code_self]
      · rw [if_neg hq, embryo_code_of_ne u hq, hcode]
    have hkept := h.congr hsame fun q hq ↦ absurd hq (hno q)
    refine ⟨hkept.1.embryo hlive' ?_ ?_, hkept.2.embryo hkept.1.listing hlive', fun q ↦ ?_, ?_⟩
    · rw [hcode, hsame.current, hnil, linking?_nil]
    · rw [hcode, hdead]
    · rw [hcodes]
      split_ifs
      · exact fun hc ↦ List.cons_ne_nil _ _ hc.symm
      · exact hno q
    · change (u.embryo p).code u.current = []
      rw [hcodes, hsame.current, if_neg hcur.symm, hnil]
  rw [Ucore.forkBegin]
  have halloc := forkAlloc_kin mem s
  refine sat_bind (R := fun p t ↦ t.Making p) (halloc.imp (fun p t ht ↦ ?_) fun _ t ht ↦ ?_)
    fun p t ht ↦ ?_
  · obtain ⟨hp, -, u, hsame, hcode, hsame', hcode'⟩ := ht
    exact (hembryo p u hp hsame hcode).congr hsame' hcode'
  · rcases ht with hsame | ⟨p, u, hp, -, hsame, hcode, hsame'⟩
    · exact h.congr hsame fun q hq ↦ absurd hq (hno q)
    · have hmake := hembryo p u hp hsame hcode
      exact TreeKept.congr ⟨hmake.tree.kfreeProc, hmake.init.kfreeProc p⟩ hsame' fun q hq ↦
        absurd hq (hmake.quiet q)
  · have hcopy := moves_and (SameKin.copyMmAlloc flags p mem) (copyMmAlloc_code flags p mem) t
    refine sat_bind (R := fun _ u ↦ u.Making p) (sat_onError (hcopy.imp
      (fun _ u hu ↦ ht.congr hu.1 hu.2) fun _ u hu ↦ ht.congr hu.1 hu.2) fun _ u hu ↦ ?_)
      fun c u hu ↦ ?_
    · exact hu.cleanup.imp (fun _ _ hk ↦ hk) fun _ _ hf ↦ hf.elim
    · cases c with
      | done => exact hu.push (l := []) rfl (by simp)
      | dup m => exact hu.push (l := [.locks]) rfl (by simp)

/-- `get_pid` sets its static variables. -/
theorem TreeOk.setCounters (h : s.TreeOk x) (lastPid nextSafe : ℕ) :
    TreeOk { s with lastPid := lastPid, nextSafe := nextSafe } x := by
  obtain ⟨⟨kids, hk⟩, hl, htold⟩ := h
  exact ⟨⟨kids, hk.congr rfl (fun _ ↦ rfl) (fun _ ↦ rfl) (fun _ ↦ rfl) fun _ ↦ rfl⟩,
    ⟨hl.nodup, hl.num, hl.idle, hl.live, hl.parent, hl.hashNodup, hl.hash, hl.unborn, hl.maker,
      hl.held⟩, htold⟩

theorem InitOk.setCounters (h : s.InitOk) (lastPid nextSafe : ℕ) :
    InitOk { s with lastPid := lastPid, nextSafe := nextSafe } :=
  ⟨h.mem, h.alive, h.exits, h.rooted⟩

/-- The process structure is linked. -/
theorem Making.forkLink (h : s.Making p) (hlisted : s.current ∈ s.procList)
    (halive : (s.proc s.current).state ≠ .zombie) : ((Ucore.forkLink p).run s).Sat
      (fun _ t ↦ t.TreeKept ∧ t.code = s.code ∧ t.current = s.current) fun _ _ ↦ False := by
  have hl := h.tree.listing
  obtain ⟨hpar, -⟩ := hl.held p rfl
  obtain ⟨hnot, -, hchild⟩ := hl.unborn p (.inr rfl)
  rw [Ucore.forkLink, get_bind_run]
  cases getPid (2 * maxPid) ⟨s.lastPid, s.nextSafe, s.procList.map fun q ↦ (s.proc q).pid⟩ with
  | none => trivial
  | some r =>
    rw [hpar]
    set u := { s with lastPid := r.lastPid, nextSafe := r.nextSafe } with hu
    set v := u.setProc p fun q ↦ { q with pid := r.lastPid } with hv
    have htree : v.TreeOk (some p) := (h.tree.setCounters r.lastPid r.nextSafe).setPid r.lastPid
    have hinit : v.InitOk := (h.init.setCounters r.lastPid r.nextSafe).setPid p r.lastPid
    have hvpar : ∀ q, (v.proc q).parent = (s.proc q).parent :=
      u.setProc_field (g := Proc.parent) p (f := fun q ↦ { q with pid := r.lastPid }) fun _ ↦ rfl
    have hvst : ∀ q, (v.proc q).state = (s.proc q).state :=
      u.setProc_field (g := Proc.state) p (f := fun q ↦ { q with pid := r.lastPid }) fun _ ↦ rfl
    obtain ⟨f, hf⟩ := (v.hashProc p).setLinks_eq p s.current
    refine ⟨⟨htree.setLinks ((hvpar p).trans hpar) (.inr hlisted) ?_, hinit.setLinks hnot
      ((hvpar p).trans hpar) hlisted fun q hq ↦ ?_⟩, ?_, ?_⟩
    · rw [hvst]
      exact halive
    · rw [hvpar]
      obtain ⟨kids, hk⟩ := h.tree.kids
      exact hk.childless hchild hq
    · change ((v.hashProc p).setLinks p s.current).code = s.code
      rw [hf]
      rfl
    · change ((v.hashProc p).setLinks p s.current).current = s.current
      rw [hf]
      rfl

/-! ## do_wait -/

/-- The loop of `do_wait` finds the first zombie of a list of children. -/
theorem firstZombie_eq {prev : ℕ → Option ℕ} {v : Option ℕ} {l : List ℕ} {fuel : ℕ}
    (h : Siblings (fun p ↦ (s.proc p).optr) prev v l) (hfuel : l.length ≤ fuel) :
    s.firstZombie fuel l.head? = l.find? fun c ↦ (s.proc c).state = .zombie := by
  induction l generalizing v fuel with
  | nil =>
    rw [List.head?_nil, List.find?_nil]
    cases fuel <;> rfl
  | cons c l ih =>
    obtain ⟨-, hc, hl⟩ := h
    obtain ⟨n, rfl⟩ : ∃ n, fuel = n + 1 := Nat.exists_eq_succ_of_ne_zero (by
      rw [List.length_cons] at hfuel
      omega)
    rw [List.head?_cons, firstZombie, List.find?_cons]
    by_cases hz : (s.proc c).state = .zombie
    · rw [if_pos hz, decide_eq_true hz]
    · rw [if_neg hz, decide_eq_false hz, show (s.proc c).optr = l.head? from hc]
      exact ih hl (Nat.le_of_succ_le_succ hfuel)

theorem Family.length_le (h : s.Family kids) (hl : s.Listing x) (q : ℕ) :
    (kids q).length ≤ s.live.card :=
  Giving.length_le ⟨h.first, fun q _ ↦ h.links q, ⟨none, h.links _⟩, h.nodup, h.mem⟩ hl q

/-- What the scan of `do_wait` finds for any child. -/
theorem TreeOk.waitTarget_zero (h : s.TreeOk x) (hk : s.Family kids) : s.waitTarget 0 =
    ((kids s.current).find? fun c ↦ (s.proc c).state = .zombie).elim
      (if kids s.current = [] then .none else .waiting) .found := by
  have hfirst := firstZombie_eq (hk.links s.current) (hk.length_le h.listing s.current)
  rw [← hk.first] at hfirst
  rw [waitTarget, if_neg (not_not.mpr rfl), hfirst]
  cases (kids s.current).find? fun c ↦ (s.proc c).state = .zombie with
  | none =>
    rw [Option.elim_none]
    simp only [hk.kids_eq_nil]
  | some c => rfl

/-- The child that `do_wait` finds is on `proc_list`. -/
theorem TreeOk.found_listed (h : s.TreeOk x) {pid c : ℕ} (hc : s.waitTarget pid = .found c) :
    c ∈ s.procList := by
  obtain ⟨kids, hk⟩ := h.kids
  by_cases hpid : pid = 0
  · rw [hpid, h.waitTarget_zero hk] at hc
    cases hfind : (kids s.current).find? fun c ↦ (s.proc c).state = .zombie with
    | none =>
      rw [hfind, Option.elim_none] at hc
      split_ifs at hc
    | some d =>
      rw [hfind, Option.elim_some] at hc
      obtain rfl := WaitScan.found.inj hc
      exact ((hk.mem _ _).mp (List.mem_of_find?_eq_some hfind)).1
  · rw [waitTarget, if_pos hpid] at hc
    cases hfind : s.findProc pid with
    | none =>
      rw [hfind] at hc
      cases hc
    | some d =>
      rw [hfind] at hc
      dsimp only at hc
      split_ifs at hc
      obtain rfl := WaitScan.found.inj hc
      rw [findProc] at hfind
      split_ifs at hfind
      exact (h.listing.hash _ _ (List.mem_of_find?_eq_some hfind)).1

theorem TreeKept.waitScan (h : s.TreeKept) (hno : ∀ p, s.code p ≠ telling) (pid : ℕ) :
    ((Ucore.waitScan pid).run s).Sat (fun _ t ↦ t.TreeKept) fun _ t ↦ t.TreeKept := by
  rw [Ucore.waitScan, get_bind_run]
  cases htarget : s.waitTarget pid with
  | none => exact h
  | waiting =>
    dsimp only
    rw [modify_bind_run]
    have hset := SameKin.setProc s s.current (f := fun q ↦ { q with state := .sleeping })
      (fun _ ↦ rfl) (fun _ ↦ rfl) (fun _ ↦ rfl) (fun _ ↦ rfl) (fun _ ↦ rfl)
      (fun hz ↦ absurd hz ProcState.noConfusion) fun _ ↦ .inr rfl
    exact (h.congr hset fun q hq ↦ hq).push hno (by simp [Section.linking?]) (by simp)
  | found c =>
    dsimp only
    rw [Ucore.waitFound, get_bind_run]
    refine sat_assert_bind fun hne ↦ ?_
    rw [modify_bind_run, modify_bind_run]
    have hlisted := h.1.found_listed htarget
    have hkept : (((s.unhashProc c).removeLinks c).kfreeProc c).TreeKept :=
      ⟨h.1.reap hno hlisted (waitTarget_zombie htarget), h.2.reap hne.2 h.1.listing.nodup⟩
    refine hkept.congr (SameKin.putKstack _ c) fun q hq ↦ absurd hq ?_
    obtain ⟨f, hf⟩ := (s.unhashProc c).removeLinks_run c
    rw [hf]
    exact hno q

/-! ## Every step -/

/-- Only a process that is about to tell its relatives has `exitTell` before it. -/
theorem RunOk.exitTell_mem (h : s.RunOk) (hp : .exitTell ∈ s.code p) : s.code p = telling := by
  have htidy : ∀ {l : List Section}, Tidy l → .exitTell ∉ l := by
    intro l hl
    induction hl with
    | nil => exact List.not_mem_nil
    | last hi =>
      rw [List.mem_singleton]
      rintro rfl
      exact hi
    | cons hi _ ih =>
      rw [List.mem_cons, not_or]
      refine ⟨?_, ih⟩
      rintro rfl
      exact hi
  have hwait : ∀ {r : Section} {w : BitVec 32}, r.wait? = some w → .exitTell ≠ r := by
    rintro r w hr rfl
    cases hr
  have hshape := h.sched.shape p
  generalize hcode : s.code p = l at hshape hp ⊢
  generalize (s.proc p).state = st at hshape
  generalize (s.proc p).waitState = w at hshape
  cases hshape with
  | uninit _ => exact absurd hp List.not_mem_nil
  | plain hl => exact absurd hp (htidy hl)
  | woken hr _ hl =>
    rcases List.mem_cons.mp hp with hc | hc
    · exact absurd hc (hwait hr)
    · exact absurd hc (htidy hl.tidy)
  | early _ hr _ hl | going _ hr hl =>
    rcases List.mem_cons.mp hp with hc | hc
    · cases hc
    · rcases List.mem_cons.mp hc with hc | hc
      · exact absurd hc (hwait hr)
      · exact absurd hc (htidy hl.tidy)
  | drowsy _ => simp at hp
  | asleep _ hr hl =>
    rcases List.mem_cons.mp hp with hc | hc
    · exact absurd hc (hwait hr)
    · exact absurd hc (htidy hl.tidy)
  | telling _ => rfl
  | dying _ => simp at hp
  | dead _ => simp at hp

/-- Every section keeps the process tree in order. -/
theorem RunOk.exec_tree (h : s.RunOk) (ht : s.TreeKept) {i : Section} {rest : List Section}
    (hcode : s.code s.current = i :: rest) (hC : ForksPublish s i) (hfresh : i.Fresh s) :
    (i.exec.run (s.setCode s.current rest)).Sat (fun _ t ↦ t.TreeKept) fun _ t ↦ t.TreeKept := by
  -- taking the section off the code changes no field of a family; only behind `exitTell` would the
  -- process no longer be known as one that has to give its children away
  have hpop : i.linking? = none → i ≠ .exitTell → (s.setCode s.current rest).TreeKept :=
    fun hi hne ↦ ht.congr (SameKin.pop hcode hi) fun p hp ↦
      absurd hp (h.not_telling hcode hne p)
  have hno : i ≠ .exitTell → ∀ p, (s.setCode s.current rest).code p ≠ telling := by
    intro hne p hp
    rcases eq_or_ne p s.current with rfl | hpc
    · rw [setCode_self] at hp
      refine h.not_telling hcode hne s.current (h.exitTell_mem ?_)
      rw [hcode, hp]
      exact List.mem_cons_of_mem i List.mem_cons_self
    · rw [setCode_of_ne s hpc] at hp
      exact h.not_telling hcode hne p hp
  have hmaking : ∀ p, i.linking? = some p → i.Plain → ¬i.Inner → i ≠ .schedule →
      (s.setCode s.current rest).Making p := by
    intro p hi hplain hinner hne
    obtain rfl := (h.pop hcode hplain hne).2 hinner
    have htell : i ≠ .exitTell := by
      rintro rfl
      cases hi
    exact ⟨ht.1.pop_linking hcode hi (h.not_telling hcode htell), ht.2.setCode_tail hcode,
      hno htell, setCode_self s _ _⟩
  -- most sections leave the families alone
  by_cases hkin : i.Kinless
  · have hne : i ≠ .exitTell := by
      rintro rfl
      exact hkin
    have hsame := SameKin.pop hcode hkin.linking?_eq
    exact (SameKin.exec hkin hC).imp
      (fun _ t hs ↦ ht.congr (hsame.trans hs) fun p hp ↦ absurd hp (h.not_telling hcode hne p))
      fun _ t hs ↦ ht.congr (hsame.trans hs) fun p hp ↦ absurd hp (h.not_telling hcode hne p)
  cases i with
  | schedule =>
    exact (hpop rfl Section.noConfusion).schedule (hno Section.noConfusion)
  | waitScan pid =>
    exact (hpop rfl Section.noConfusion).waitScan (hno Section.noConfusion) pid
  | waitSleep pid =>
    have hset := SameKin.setProc (s.setCode s.current rest) s.current
      (f := fun q ↦ { q with waitState := wtChild }) (fun _ ↦ rfl) (fun _ ↦ rfl) (fun _ ↦ rfl)
      (fun _ ↦ rfl) (fun _ ↦ rfl) id .inl
    exact ((hpop rfl Section.noConfusion).congr hset fun q hq ↦ hq).push (hno Section.noConfusion)
      (by simp [Section.linking?]) (by simp)
  | fork flags mem =>
    obtain rfl := (h.pop hcode trivial Section.noConfusion).2 id
    refine (hpop rfl Section.noConfusion).forkBegin (hno Section.noConfusion) (setCode_self s _ _)
      flags mem fun p hp ↦ ?_
    -- the address is fresh, so no call of `do_fork` works on it
    have hlive := hfresh.1 p hp
    have hne : p ≠ s.current := by
      rintro rfl
      exact hlive h.sched.current_live
    refine ⟨hlive, ?_, hne⟩
    rw [setCode_of_ne s hne]
    by_contra hsome
    obtain ⟨r, hr⟩ := Option.ne_none_iff_exists'.mp hsome
    have hnone := (h.sched.unused_code hlive).2.2.2
    rw [embryo?_of_linking? hr] at hnone
    cases hnone
  | forkDup flags p m mem =>
    have hmake := hmaking p rfl trivial id Section.noConfusion
    exact (hmake.congr ((SameKin.setMem _ _).trans (SameKin.setMem _ _)) rfl).push (l := [.locks])
      (i := .forkMm flags p m mem) rfl (by simp)
  | forkMm flags p m mem =>
    have hmake := hmaking p rfl trivial id Section.noConfusion
    have hcopy := moves_and (SameKin.copyMmGood p m mem) (copyMmGood_code p m mem)
      (s.setCode s.current rest)
    refine sat_bind (R := fun _ u ↦ u.Making p) (sat_onError (hcopy.imp
      (fun _ u hu ↦ hmake.congr hu.1 hu.2) fun _ u hu ↦ hmake.congr hu.1 hu.2) fun _ u hu ↦ ?_)
      fun _ u hu ↦ ?_
    · exact hu.cleanup.imp (fun _ _ hk ↦ hk) fun _ _ hf ↦ hf.elim
    · exact hu.push (l := []) (i := .forkLink flags p mem) rfl (by simp)
  | forkLink flags p mem =>
    have hmake := hmaking p rfl trivial id Section.noConfusion
    obtain ⟨hrunning, -⟩ := h.pop hcode trivial Section.noConfusion
    have hstate : (s.proc s.current).state = .runnable := hrunning.runnable
    have hlisted := h.listed ht.1.listing h.sched.current_live
      (h.ne_idle hcode Section.noConfusion) (by
        rw [hstate]
        exact ProcState.noConfusion)
    refine sat_bind ((hmake.forkLink hlisted (by
      change (s.proc s.current).state ≠ .zombie
      rw [hstate]
      exact ProcState.noConfusion)).imp (fun _ _ hu ↦ hu) fun _ _ hf ↦ hf.elim) fun _ u hu ↦ ?_
    obtain ⟨hkept, hucode, -⟩ := hu
    refine hkept.congr (SameKin.push u (by simp [Section.Quiet])) fun q hq ↦ absurd hq ?_
    rw [hucode]
    exact hno Section.noConfusion q
  | exit code =>
    rw [Section.exec, Ucore.exitMm, get_bind_run]
    refine sat_assert_bind fun _ ↦ sat_assert_bind fun hinit ↦ ?_
    refine sat_bind ((moves_and SameKin.dropMm dropMm_code _).imp (fun _ t hs ↦ hs)
      fun _ t hs ↦ ?_) fun _ t hs ↦ ?_
    · exact (hpop rfl Section.noConfusion).congr hs.1 fun q hq ↦
        absurd hq (hno Section.noConfusion q)
    · have hkept := (hpop rfl Section.noConfusion).congr hs.1 fun q hq ↦
        absurd hq (hno Section.noConfusion q)
      have hpush : ∀ l : List Section, (∀ i ∈ l, i.linking? = none) → (t.push l).TreeKept := by
        intro l hl
        refine ⟨TreeOk.push hkept.1 (fun q hq ↦ ?_) hl, hkept.2.push fun _ _ ↦ ?_⟩
        · rw [hs.2] at hq
          exact hno Section.noConfusion q hq
        · rw [hs.1.current, hs.1.initproc]
          exact hinit
      refine hpush _ ?_
      split_ifs <;> simp [Section.linking?]
  | exitZombie code =>
    obtain rfl := (h.pop hcode trivial Section.noConfusion).2 id
    have hkept := hpop rfl Section.noConfusion
    -- `do_exit` has checked that it is not `initproc` that exits
    have hne : s.current ≠ s.initproc := ht.2.exits s.current code (by
      rw [hcode]
      exact List.mem_cons_self)
    exact ⟨hkept.1.exitZombie (hno Section.noConfusion) (setCode_self s _ _) code,
      hkept.2.exitZombie hne code⟩
  | exitTell =>
    have hself : s.code s.current = telling := h.exitTell_mem (by
      rw [hcode]
      exact List.mem_cons_self)
    have hzombie : (s.proc s.current).state = .zombie := by
      have hshape := h.sched.shape s.current
      rw [hself, telling] at hshape
      generalize (s.proc s.current).state = st at hshape ⊢
      generalize (s.proc s.current).waitState = w at hshape
      cases hshape with
      | plain hl =>
        cases hl with
        | cons hi _ => exact absurd hi id
      | woken hr _ _ => cases hr
      | asleep _ hr _ => cases hr
      | telling _ => rfl
    have hsame : SameKin s (s.setCode s.current rest) := SameKin.pop hcode rfl
    obtain ⟨kids, hk⟩ := ht.1.kids
    -- all its children are still to be given away
    have hgive : s.Giving kids :=
      ⟨hk.first, fun q _ ↦ hk.links q, ⟨none, hk.links _⟩, hk.nodup, hk.mem⟩
    have hleave : s.Leaving := by
      refine ⟨ht.1.listing, ht.2, fun p hp hz ↦ ?_, h.ne_idle hcode Section.noConfusion, ?_⟩
      · exact (ht.1.told p hz).resolve_right fun hp' ↦ hp (h.telling_current hp')
      · intro hc
        exact ht.2.alive (hc ▸ hzombie)
    exact ((hleave.congr hsame).exitTell (hgive.congr hsame)).imp (fun _ _ hu ↦ hu)
      fun _ _ hf ↦ hf.elim
  | exited => trivial
  | _ => exact absurd trivial hkin

theorem timerInterrupt_code : Moves (Same Kernel.code) Ucore.timerInterrupt := by
  have hwake : ∀ p, Moves (Same Kernel.code) (Ucore.wakeupProc p) := fun p ↦ by
    refine .bind .get fun s ↦ .bind (.assert _) fun _ ↦ .ite (fun _ ↦ ?_) fun _ ↦ .pure ()
    refine .bind (.modify fun _ ↦ rfl) fun _ ↦ .ite (fun _ ↦ .modify fun u ↦ ?_) fun _ ↦ .pure ()
    rw [schedClassEnqueue]
    split_ifs <;> rfl
  have htimers : ∀ l, Moves (Same Kernel.code) (Ucore.wakeupTimers l) := fun l ↦ by
    induction l with
    | nil => exact .pure ()
    | cons timer l ih =>
      rw [Ucore.wakeupTimers]
      cases timer.proc with
      | none => exact .halt
      | some p =>
        exact .bind .get fun _ ↦ .bind (.assert _) fun _ ↦ .bind (hwake p) fun _ ↦ ih
  refine .bind ?_ fun l ↦ .bind (htimers l) fun _ ↦ .modify fun u ↦ ?_
  · rw [onTimers]
    exact .zoom (fun list (s : Kernel) ↦ (rfl : { s with timers := list }.code = s.code)) _
  · rw [schedClassProcTick]
    split_ifs <;> rfl

/-- Sections that are put in front of others. -/
theorem RunOk.insert_tree (h : s.RunOk) (ht : s.TreeKept) {j : Section} {rest : List Section}
    (hcode : s.code s.current = j :: rest) (hj : j ≠ .exitTell) {l : List Section}
    (hl : ∀ i ∈ l, i.Quiet) : (s.setCode s.current (l ++ j :: rest)).TreeKept := by
  have heq : s.setCode s.current (l ++ j :: rest) = s.push l := by
    rw [Kernel.push, hcode]
  rw [heq]
  exact ht.congr (SameKin.push s hl) fun p hp ↦ absurd hp (h.not_telling hcode hj p)

/-- Every step keeps the process tree in order. -/
theorem TreeKept.step (ht : s.TreeKept) (h : s.RunOk) {events : List Event}
    (hstep : KStep ForksPublish s events t) : t.TreeKept := by
  cases hstep with
  | interrupt hrun =>
    have hboth := moves_and SameKin.timerInterrupt timerInterrupt_code s
    rw [hrun] at hboth
    obtain ⟨hsame, hcode⟩ : SameKin s t ∧ Same Kernel.code s t := hboth
    exact ht.congr hsame fun p hp ↦ (congrFun hcode p).trans hp
  | call c hcode hidle =>
    have heq : s.setCode s.current c.code = s.push c.code := by
      rw [Kernel.push, hcode, List.append_nil]
    rw [heq]
    refine ht.congr (SameKin.push s ?_) fun p hp ↦ ?_
    · cases c <;> simp [Call.code, doExecve, doExit, Section.Quiet]
    · obtain rfl := h.telling_current hp
      rw [hcode] at hp
      exact absurd hp.symm (List.cons_ne_nil _ _)
  | @lock i rest hcode hi =>
    refine h.insert_tree ht hcode Section.noConfusion (l := [i]) ?_
    cases hi <;> simp [Section.Quiet]
  | @read fd rest hcode =>
    exact h.insert_tree ht hcode Section.noConfusion (l := [.fileUse fd]) (by simp [Section.Quiet])
  | run hcode hC hfresh hrun =>
    have hsat := h.exec_tree ht hcode hC hfresh
    rw [hrun] at hsat
    exact hsat
  | fail hcode hC hfresh hrun =>
    have hsat := h.exec_tree ht hcode hC hfresh
    rw [hrun] at hsat
    exact hsat

theorem TreeKept.run (ht : s.TreeKept) (h : s.RunOk) {events : List Event}
    (hrun : KRun ForksPublish s events t) : t.TreeKept := by
  induction hrun with
  | refl => exact ht
  | tail hrun hstep ih => exact ih.step (h.run hrun) hstep

/-! ## Boot -/

/-- No process is a zombie or is about to be one. -/
def Calm (s : Kernel) : Prop :=
  (∀ p, (s.proc p).state ≠ .zombie) ∧ ∀ q code, .exitZombie code ∉ s.code q

theorem Calm.congr (h : s.Calm) (hsame : SameKin s t) : t.Calm :=
  ⟨fun p hp ↦ h.1 p (hsame.zombie p hp), fun q code hq ↦ h.2 q code (hsame.exits q code hq)⟩

theorem TreeOk.congr_calm (h : s.TreeOk x) (hcalm : s.Calm) (hsame : SameKin s t) : t.TreeOk x := by
  obtain ⟨⟨kids, hk⟩, hl, -⟩ := h
  exact ⟨⟨kids, hk.of_same hsame⟩, hl.congr hsame, fun p hp ↦
    absurd (hsame.zombie p hp) (hcalm.1 p)⟩

theorem Calm.embryo (h : s.Calm) (p : ℕ) : (s.embryo p).Calm := by
  refine ⟨fun q ↦ ?_, fun q code ↦ ?_⟩
  · by_cases hq : q = p
    · rw [hq, embryo_proc_self]
      exact ProcState.noConfusion
    · rw [embryo_proc_of_ne s hq]
      exact h.1 q
  · by_cases hq : q = p
    · rw [hq, embryo_code_self]
      exact List.not_mem_nil
    · rw [embryo_code_of_ne s hq]
      exact h.2 q code

/-- `proc_init` has called `do_fork` for `initproc`, which is still the only process listed. -/
structure Single (s : Kernel) (p : ℕ) : Prop where
  tree : s.TreeOk none
  calm : s.Calm
  list : s.procList = [p]
  parent : (s.proc p).parent = some s.idleproc

theorem Single.congr (h : s.Single p) (hsame : SameKin s t) : t.Single p where
  tree := h.tree.congr_calm h.calm hsame
  calm := h.calm.congr hsame
  list := hsame.procList.trans h.list
  parent := by
    rw [hsame.parent, hsame.idleproc]
    exact h.parent

/-- `find_proc` finds the process, and the tree is in order from then on. -/
theorem Single.setInitproc (h : s.Single p) {pid q : ℕ} (hfind : s.findProc pid = some q) :
    TreeKept { s with initproc := q } := by
  have hl := h.tree.listing
  obtain ⟨kids, hk⟩ := h.tree.kids
  obtain rfl : q = p := by
    rw [findProc] at hfind
    split_ifs at hfind
    have hmem := (hl.hash _ q (List.mem_of_find?_eq_some hfind)).1
    rw [h.list] at hmem
    exact List.mem_singleton.mp hmem
  have hq : q ∈ s.procList := by
    rw [h.list]
    exact List.mem_cons_self
  have hidle : s.idleproc ≠ q := fun heq ↦ hl.idle (heq ▸ hq)
  refine ⟨⟨⟨kids, hk.congr rfl (fun _ ↦ rfl) (fun _ ↦ rfl) (fun _ ↦ rfl) fun _ ↦ rfl⟩,
    ⟨hl.nodup, hl.num, hl.idle, hl.live, hl.parent, hl.hashNodup, hl.hash, hl.unborn, hl.maker,
      hl.held⟩, h.tree.told⟩, hq, h.calm.1 q, fun r code hr ↦ absurd hr (h.calm.2 r code),
    ⟨fun r ↦ if r = q then 1 else 0, fun r hr ↦ ?_⟩⟩
  obtain rfl : r = q := by
    rw [← List.mem_singleton, ← h.list]
    exact hr
  refine ⟨fun hne ↦ absurd rfl hne, fun r' hr' ↦ ?_⟩
  obtain rfl := Option.some.inj (h.parent.symm.trans hr')
  change (if s.idleproc = r then 1 else 0) < if r = r then 1 else 0
  rw [if_pos rfl, if_neg hidle]
  exact Nat.one_pos

/-- When `proc_init` calls `do_fork` there is only the idle process. -/
theorem booting_tree (value : ℕ → ℤ) (memory : Memory) (idle f page : ℕ) :
    (booting value memory idle f page).TreeOk none ∧ (booting value memory idle f page).Calm := by
  set s := booting value memory idle f page with hs
  have hcode : ∀ p, s.code p = [] := booting_code value memory idle f page
  have hproc : ∀ p, s.proc p = idleProc f ∨ s.proc p = .blank := by
    intro p
    rcases eq_or_ne p idle with rfl | hp
    · exact .inl (booting_proc_self value memory p f page)
    · exact .inr (booting_proc_of_ne value memory idle f page hp)
  have hcptr : ∀ p, (s.proc p).cptr = none := fun p ↦ by
    rcases hproc p with hp | hp <;> rw [hp] <;> rfl
  have hzombie : ∀ p, (s.proc p).state ≠ .zombie := fun p ↦ by
    rcases hproc p with hp | hp <;> rw [hp] <;> exact ProcState.noConfusion
  have hnone : ∀ p, ¬s.Unborn none p := by
    rintro p (⟨q, hq⟩ | hq)
    · rw [hcode, linking?_nil] at hq
      cases hq
    · cases hq
  refine ⟨⟨⟨fun _ ↦ [], fun q ↦ ?_, fun _ ↦ Siblings.nil, fun _ ↦ List.nodup_nil, fun q p ↦ ?_⟩,
    ⟨List.nodup_nil, rfl, List.not_mem_nil, fun p ↦ ?_, fun p hp ↦ absurd hp List.not_mem_nil,
      fun _ ↦ List.nodup_nil, fun b p hp ↦ absurd hp List.not_mem_nil,
      fun p hp ↦ absurd hp (hnone p), fun q p hq ↦ ?_, fun p hp ↦ ?_⟩,
    fun p hp ↦ absurd hp (hzombie p)⟩, hzombie, fun q code ↦ ?_⟩
  · rw [hcptr]
    rfl
  · exact ⟨fun hp ↦ absurd hp List.not_mem_nil, fun hp ↦ absurd hp.1 List.not_mem_nil⟩
  · change p ∈ insert idle ∅ ↔ p = idle ∨ p ∈ [] ∨ _
    rw [Finset.mem_insert]
    exact or_congr_right ⟨fun hp ↦ absurd hp (Finset.notMem_empty p), fun hp ↦
      hp.elim (fun hp ↦ absurd hp List.not_mem_nil) fun hp ↦ absurd hp (hnone p)⟩
  · rw [hcode, linking?_nil] at hq
    cases hq
  · cases hp
  · rw [hcode]
    exact List.not_mem_nil

/-- `do_fork` links the first process below the idle process. -/
theorem TreeOk.forkLink_single (h : s.TreeOk (some p)) (hcalm : s.Calm) (hlist : s.procList = [])
    (hcur : s.current = s.idleproc) :
    ((Ucore.forkLink p).run s).Sat (fun _ t ↦ t.Single p) fun _ _ ↦ True := by
  obtain ⟨hpar, -⟩ := h.listing.held p rfl
  rw [Ucore.forkLink, get_bind_run]
  cases getPid (2 * maxPid) ⟨s.lastPid, s.nextSafe, s.procList.map fun q ↦ (s.proc q).pid⟩ with
  | none => trivial
  | some r =>
    rw [hpar, hcur]
    set u := { s with lastPid := r.lastPid, nextSafe := r.nextSafe } with hu
    set v := u.setProc p fun q ↦ { q with pid := r.lastPid } with hv
    have htree : v.TreeOk (some p) := (h.setCounters r.lastPid r.nextSafe).setPid r.lastPid
    have hvpar : (v.proc p).parent = some s.idleproc := by
      rw [hv, u.setProc_field (g := Proc.parent) p (f := fun q ↦ { q with pid := r.lastPid })
        fun _ ↦ rfl]
      exact hpar.trans (by rw [hcur])
    have hvst : ∀ q, (v.proc q).state = (s.proc q).state :=
      u.setProc_field (g := Proc.state) p (f := fun q ↦ { q with pid := r.lastPid }) fun _ ↦ rfl
    have hlinked : ((v.hashProc p).setLinks p s.idleproc).TreeOk none :=
      htree.setLinks hvpar (.inl rfl) (by
        rw [hvst]
        exact hcalm.1 s.idleproc)
    obtain ⟨f, hf⟩ := (v.hashProc p).setLinks_eq p s.idleproc
    have hstate := (v.hashProc p).setLinks_field (g := Proc.state) p s.idleproc (fun _ _ ↦ rfl)
      (fun _ _ ↦ rfl) fun _ _ ↦ rfl
    have hparent := (v.hashProc p).setLinks_field (g := Proc.parent) p s.idleproc (fun _ _ ↦ rfl)
      (fun _ _ ↦ rfl) fun _ _ ↦ rfl
    refine ⟨hlinked, ⟨fun q ↦ ?_, fun q code ↦ ?_⟩, ?_, ?_⟩
    · change ((((v.hashProc p).setLinks p s.idleproc)).proc q).state ≠ _
      rw [hstate]
      exact fun hq ↦ hcalm.1 q ((hvst q).symm.trans hq)
    · change _ ∉ ((v.hashProc p).setLinks p s.idleproc).code q
      rw [hf]
      exact hcalm.2 q code
    · change ((v.hashProc p).setLinks p s.idleproc).procList = [p]
      rw [hf]
      exact congrArg (p :: ·) hlist
    · change (((v.hashProc p).setLinks p s.idleproc).proc p).parent =
        some ((v.hashProc p).setLinks p s.idleproc).idleproc
      rw [hparent, hf]
      exact hvpar

/-- The parts of a call of `do_fork` that returns. -/
theorem doFork_kin (flags : BitVec 32) {mem : ForkMem}
    (hgood : flags &&& cloneFs ≠ 0 ∨ mem.files.addr ≠ none) (s : Kernel) :
    ((Ucore.doFork flags mem).run s).Sat (fun _ t ↦ ∃ p u v w, mem.proc.addr = some p ∧
      SameKin s u ∧ u.code = s.code ∧ SameKin (u.embryo p) v ∧
        (Ucore.forkLink p).run v = .ok () w ∧ SameKin w t) fun _ _ ↦ True := by
  rw [Ucore.doFork]
  refine sat_bind ((forkAlloc_kin mem s).imp (fun _ _ ht ↦ ht) fun _ _ _ ↦ trivial) fun p t ht ↦ ?_
  obtain ⟨hp, -, u, hsame, hcode, hsame', -⟩ := ht
  refine sat_bind (R := fun _ v ↦ SameKin (u.embryo p) v) ?_ fun _ v hv ↦ ?_
  · have hcopy := SameKin.copyMm flags p mem t
    rw [run_onError]
    cases hrun : (Ucore.copyMm flags p mem).run t with
    | ok a v =>
      rw [hrun] at hcopy
      exact hsame'.trans hcopy
    | error e v =>
      dsimp only
      cases (badForkCleanupKstack p).run v <;> trivial
    | panic => trivial
  refine sat_bind (R := fun _ w ↦ (Ucore.forkLink p).run v = .ok () w) ?_ fun _ w hw ↦ ?_
  · cases hrun : (Ucore.forkLink p).run v with
    | ok a w => rfl
    | error e w => trivial
    | panic => trivial
  refine sat_bind ((SameKin.wakeupProc p w).imp (fun _ _ hx ↦ hx) fun _ _ _ ↦ trivial)
    fun _ x hx ↦ ?_
  rw [get_bind_run]
  have hfiles := (SameKin.copyFiles hgood p x).imp (fun _ y hy ↦ hx.trans hy) fun _ _ hf ↦ hf
  refine sat_bind (forkFiles_sat hfiles) fun _ y hy ↦ ?_
  exact ⟨p, u, v, w, hp, hsame, hcode, hv, hw, hy⟩

/-- `do_fork` at boot makes `initproc`. -/
theorem doFork_single {value : ℕ → ℤ} {memory : Memory} {idle f page : ℕ} {mem : ForkMem}
    (hidle : ∀ p, mem.proc.addr = some p → p ≠ idle) (hfiles : mem.files.addr ≠ none) :
    ((Ucore.doFork cloneVm mem).run (booting value memory idle f page)).Sat
      (fun _ t ↦ ∃ p, t.Single p) fun _ _ ↦ True := by
  obtain ⟨htree, hcalm⟩ := booting_tree value memory idle f page
  refine (doFork_kin _ (.inr hfiles) (booting value memory idle f page)).imp (fun _ t ht ↦ ?_)
    fun _ _ _ ↦ trivial
  obtain ⟨p, u, v, w, hp, hsame, hcode, hv, hw, ht⟩ := ht
  have hcodes : ∀ q, linking? (u.code q) = none := fun q ↦ by
    rw [hcode, booting_code, linking?_nil]
  have hlive : p ∉ u.live := by
    rw [hsame.live]
    change p ∉ insert idle ∅
    rw [Finset.mem_insert, or_iff_left (Finset.notMem_empty p)]
    exact hidle p hp
  have hcalm' := (hcalm.congr hsame).embryo p
  have htree' := (htree.congr_calm hcalm hsame).embryo hlive (hcodes _) (hcodes p)
  have hcur : v.current = v.idleproc := by
    rw [hv.current, hv.idleproc]
    exact hsame.current.trans hsame.idleproc.symm
  have hlink := (htree'.congr_calm hcalm' hv).forkLink_single (hcalm'.congr hv)
    (hv.procList.trans hsame.procList) hcur
  rw [hw] at hlink
  exact ⟨p, Single.congr hlink ht⟩

theorem Booted.single {value : ℕ → ℤ} (h : Booted value s) :
    ∃ (u : Kernel) (p pid q : ℕ), u.Single p ∧ u.findProc pid = some q ∧
      s = { u with initproc := q } := by
  obtain ⟨idle, f, page, mem, memory, hidle, ⟨g, hg, -⟩, hrun⟩ := h
  obtain ⟨pid, u, q, hfork, hfind, -, rfl⟩ := procInit_eq hrun
  have hfiles : mem.files.addr ≠ none := by
    rw [hg]
    exact Option.some_ne_none g
  have hsat : ((Ucore.doFork cloneVm mem).run (booting value memory idle f page)).Sat
      (fun _ t ↦ ∃ p, t.Single p) fun _ _ ↦ True := doFork_single hidle hfiles
  rw [hfork] at hsat
  obtain ⟨p, hsingle⟩ := hsat
  exact ⟨u, p, pid, q, hsingle, hfind, rfl⟩

theorem Booted.treeKept {value : ℕ → ℤ} (h : Booted value s) : s.TreeKept := by
  obtain ⟨u, p, pid, q, hu, hfind, rfl⟩ := Booted.single h
  exact hu.setInitproc hfind

/-- The parents of a listed process lead to the idle process. -/
theorem TreeKept.rooted (h : s.TreeKept) (hp : p ∈ s.procList) :
    Relation.TransGen (fun p q ↦ (s.proc p).parent = some q) p s.idleproc := by
  obtain ⟨rank, hrank⟩ := h.2.rooted
  -- induction on the rank, which drops from a process to its parent
  induction hn : rank p using Nat.strong_induction_on generalizing p with
  | h n ih =>
    obtain ⟨q, hq, hidle | hmem⟩ := h.1.listing.parent p hp
    · rw [← hidle]
      exact .single hq
    · refine .head hq (ih (rank q) ?_ hmem rfl)
      rw [← hn]
      exact (hrank p hp).2 q hq

end Kernel

/-! ## The process tree in every run -/

theorem treeKept_of_run {value : ℕ → ℤ} {s t : Kernel} {events : List Event}
    (hboot : Booted value s) (hrun : KRun ForksPublish s events t) : t.TreeKept ∧ t.RunOk :=
  have hok := Kernel.Booted.runOk hboot
  ⟨(Kernel.Booted.treeKept hboot).run hok hrun, hok.run hrun⟩

/-- In every state of every run from boot on in which the calls of `do_fork` that reach `copy_files`
succeed: `proc_list` holds processes in use other than the idle process, each once, and all of them
but those that `do_fork` has still to link, and `nr_process` counts them and the idle process; the
children of each process, linked by `cptr`, `optr` and `yptr`, form a doubly linked list that holds
exactly the listed processes with that parent, each once; following the parents from a listed
process leads to the idle process; and of the zombies only the running process can have children. -/
theorem processTree_ok {value : ℕ → ℤ} {s t : Kernel} {events : List Event}
    (hboot : Booted value s) (hrun : KRun ForksPublish s events t) :
    t.procList.Nodup ∧ (∀ p ∈ t.procList, p ∈ t.live ∧ p ≠ t.idleproc) ∧
      (∀ p ∈ t.live, p ≠ t.idleproc → (t.proc p).state ≠ .uninit → p ∈ t.procList) ∧
      t.nrProcess = t.procList.length + 1 ∧ (∃ kids, t.Family kids) ∧
      (∀ p ∈ t.procList,
        Relation.TransGen (fun p q ↦ (t.proc p).parent = some q) p t.idleproc) ∧
      ∀ p, (t.proc p).state = .zombie → (t.proc p).cptr ≠ none → p = t.current := by
  obtain ⟨htree, hok⟩ := treeKept_of_run hboot hrun
  have hl := htree.1.listing
  refine ⟨hl.nodup, fun p hp ↦ ⟨(hl.live p).mpr (.inr (.inl hp)), ?_⟩, fun p hp hne hst ↦
    hok.listed hl hp hne hst, hl.num, htree.1.kids, fun p hp ↦ htree.rooted hp, fun p hz hc ↦
    hok.telling_current ((htree.1.told p hz).resolve_left hc)⟩
  rintro rfl
  exact hl.idle hp

/-- `initproc` makes two processes, and the second exits. -/
theorem processTree_ok_sample : ∃ s events t, Booted (fun _ ↦ 1) s ∧
    KRun ForksPublish s events t ∧ t.procList = [4, 3, 2] ∧ (t.proc 4).state = .zombie ∧
      t.current = 2 ∧ ∃ kids, t.Family kids := by
  have hrun : (followBoot ForksPublish (sampleBoot fun _ ↦ 1)
      [.call .schedule, .run, .call (.fork 0 (sampleFork 3 3 3)), .run, .run, .run, .run,
        .call (.fork 0 (sampleFork 4 4 4)), .run, .run, .run, .run, .call (.wait 0), .run, .run,
        .run, .call (.exit 7), .run, .run, .run, .run]).map
      (fun r ↦ (r.2.procList, (r.2.proc 4).state, r.2.current)) = some ([4, 3, 2], .zombie, 2) := by
    decide +kernel
  obtain ⟨⟨events, t⟩, hfollow, hfacts⟩ := Option.map_eq_some_iff.mp hrun
  obtain ⟨s, hboot, hkrun⟩ := followBoot_krun hfollow
  obtain ⟨hlist, hrest⟩ := Prod.mk.inj hfacts
  obtain ⟨hstate, hcur⟩ := Prod.mk.inj hrest
  exact ⟨s, events, t, hboot, hkrun, hlist, hstate, hcur, (processTree_ok hboot hkrun).2.2.2.2.1⟩

end Ucore
