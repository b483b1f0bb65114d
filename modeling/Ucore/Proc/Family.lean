import Ucore.Lib.Siblings
import Ucore.Proc.Kin

/-!
# The process tree

The children of a process form a list: `cptr` points to the youngest, `optr` from a child to the
next older one, and `yptr` back. `Kernel.Family` says that these lists hold exactly the processes on
`proc_list`, each in the list of its parent, and `Kernel.TreeOk` adds what is needed to carry this
through a run: which process structures are still being made, that `initproc` does not exit, and
that a zombie has given its children away, or is about to.
-/

namespace Ucore

open Prog

namespace Kernel

/-! ## Assignments to links -/

section Fields

variable (s : Kernel) {α : Type} {g : Proc → α}

theorem setProc_apply (p : ℕ) (f : Proc → Proc) (x : ℕ) :
    (s.setProc p f).proc x = if x = p then f (s.proc p) else s.proc x := by
  by_cases hx : x = p
  · rw [if_pos hx, hx, setProc_self]
  · rw [if_neg hx, setProc_of_ne s hx]

section Links

variable (p : ℕ) (v : Option ℕ) (x : ℕ)

theorem assignYptr_yptr : ((s.setProc p fun r ↦ { r with yptr := v }).proc x).yptr =
    if x = p then v else (s.proc x).yptr := by
  rw [setProc_apply]
  split_ifs <;> rfl

theorem assignOptr_optr : ((s.setProc p fun r ↦ { r with optr := v }).proc x).optr =
    if x = p then v else (s.proc x).optr := by
  rw [setProc_apply]
  split_ifs <;> rfl

theorem assignCptr_cptr : ((s.setProc p fun r ↦ { r with cptr := v }).proc x).cptr =
    if x = p then v else (s.proc x).cptr := by
  rw [setProc_apply]
  split_ifs <;> rfl

theorem assignYptr_optr : ((s.setProc p fun r ↦ { r with yptr := v }).proc x).optr =
    (s.proc x).optr :=
  s.setProc_field (g := Proc.optr) p (f := fun r ↦ { r with yptr := v }) (fun _ ↦ rfl) x

theorem assignYptr_cptr : ((s.setProc p fun r ↦ { r with yptr := v }).proc x).cptr =
    (s.proc x).cptr :=
  s.setProc_field (g := Proc.cptr) p (f := fun r ↦ { r with yptr := v }) (fun _ ↦ rfl) x

theorem assignOptr_yptr : ((s.setProc p fun r ↦ { r with optr := v }).proc x).yptr =
    (s.proc x).yptr :=
  s.setProc_field (g := Proc.yptr) p (f := fun r ↦ { r with optr := v }) (fun _ ↦ rfl) x

theorem assignOptr_cptr : ((s.setProc p fun r ↦ { r with optr := v }).proc x).cptr =
    (s.proc x).cptr :=
  s.setProc_field (g := Proc.cptr) p (f := fun r ↦ { r with optr := v }) (fun _ ↦ rfl) x

theorem assignCptr_yptr : ((s.setProc p fun r ↦ { r with cptr := v }).proc x).yptr =
    (s.proc x).yptr :=
  s.setProc_field (g := Proc.yptr) p (f := fun r ↦ { r with cptr := v }) (fun _ ↦ rfl) x

theorem assignCptr_optr : ((s.setProc p fun r ↦ { r with cptr := v }).proc x).optr =
    (s.proc x).optr :=
  s.setProc_field (g := Proc.optr) p (f := fun r ↦ { r with cptr := v }) (fun _ ↦ rfl) x

end Links

theorem setYptr_field (hg : ∀ r v, g { r with yptr := v } = g r) (o v : Option ℕ) (x : ℕ) :
    g ((s.setYptr o v).proc x) = g (s.proc x) := by
  cases o with
  | none => rfl
  | some o => exact s.setProc_field o (fun r ↦ hg r v) x

theorem setYptr_yptr (o v : Option ℕ) (x : ℕ) :
    ((s.setYptr o v).proc x).yptr = if o = some x then v else (s.proc x).yptr := by
  cases o with
  | none => rw [if_neg (Option.some_ne_none x).symm, setYptr]
  | some o =>
    rw [setYptr, assignYptr_yptr]
    by_cases hx : x = o
    · rw [if_pos hx, if_pos (by rw [hx])]
    · rw [if_neg hx, if_neg fun h ↦ hx (Option.some.inj h).symm]

/-- A field that is no link is what it was after `adopt`. -/
theorem adopt_field (hy : ∀ r v, g { r with yptr := v } = g r)
    (ho : ∀ r v, g { r with optr := v } = g r) (hc : ∀ r v, g { r with cptr := v } = g r)
    (p q x : ℕ) : g ((s.adopt p q).proc x) = g (s.proc x) :=
  s.setLinks_field p q hy ho hc x

theorem adopt_optr (p q x : ℕ) :
    ((s.adopt p q).proc x).optr = if x = p then (s.proc q).cptr else (s.proc x).optr := by
  rw [adopt, assignCptr_optr, setYptr_field (g := Proc.optr) _ fun _ _ ↦ rfl, assignOptr_optr,
    assignYptr_cptr, assignYptr_optr]

theorem adopt_cptr (p q x : ℕ) :
    ((s.adopt p q).proc x).cptr = if x = q then some p else (s.proc x).cptr := by
  rw [adopt, assignCptr_cptr, setYptr_field (g := Proc.cptr) _ fun _ _ ↦ rfl, assignOptr_cptr,
    assignYptr_cptr]

theorem adopt_yptr (p q x : ℕ) : ((s.adopt p q).proc x).yptr =
    if (s.proc q).cptr = some x then some p else if x = p then none else (s.proc x).yptr := by
  rw [adopt, assignCptr_yptr, setYptr_yptr, assignYptr_cptr, assignOptr_yptr, assignYptr_yptr]

/-- The assignments of `adopt` are to process structures. -/
theorem adopt_eq (p q : ℕ) : ∃ f, s.adopt p q = { s with proc := f } := by
  rw [adopt]
  cases ((s.setProc p fun r ↦ { r with yptr := none }).proc q).cptr with
  | none => exact ⟨_, rfl⟩
  | some o => exact ⟨_, rfl⟩

theorem adopt_initproc (p q : ℕ) : (s.adopt p q).initproc = s.initproc := by
  obtain ⟨f, hf⟩ := s.adopt_eq p q
  rw [hf]

/-- The state `remove_links` leaves, the two lists aside. -/
def unlink (p : ℕ) : Kernel :=
  let s₁ := s.setYptr (s.proc p).optr (s.proc p).yptr
  match (s₁.proc p).yptr with
  | some y => s₁.setProc y fun r ↦ { r with optr := (s₁.proc p).optr }
  | none =>
    match (s₁.proc p).parent with
    | some q => s₁.setProc q fun r ↦ { r with cptr := (s₁.proc p).optr }
    | none => s₁

theorem removeLinks_eq (p : ℕ) : s.removeLinks p = { s.unlink p with
    procList := (s.unlink p).procList.erase p
    nrProcess := (s.unlink p).nrProcess - 1 } := rfl

theorem unlink_cases (p : ℕ) :
    (∃ y, (s.proc p).yptr = some y ∧ s.unlink p =
      (s.setYptr (s.proc p).optr (s.proc p).yptr).setProc y fun r ↦
        { r with optr := (s.proc p).optr }) ∨
    (s.proc p).yptr = none ∧ (s.proc p).parent = none ∧
      s.unlink p = s.setYptr (s.proc p).optr (s.proc p).yptr ∨
    ∃ q, (s.proc p).yptr = none ∧ (s.proc p).parent = some q ∧ s.unlink p =
      (s.setYptr (s.proc p).optr (s.proc p).yptr).setProc q fun r ↦
        { r with cptr := (s.proc p).optr } := by
  have hy : ((s.setYptr (s.proc p).optr (s.proc p).yptr).proc p).yptr = (s.proc p).yptr := by
    rw [setYptr_yptr, ite_self]
  have ho := s.setYptr_field (g := Proc.optr) (fun _ _ ↦ rfl) (s.proc p).optr (s.proc p).yptr p
  have hpar := s.setYptr_field (g := Proc.parent) (fun _ _ ↦ rfl) (s.proc p).optr (s.proc p).yptr p
  rw [unlink, hy, ho, hpar]
  cases hyp : (s.proc p).yptr with
  | some y => exact .inl ⟨y, rfl, rfl⟩
  | none =>
    cases hq : (s.proc p).parent with
    | some q => exact .inr (.inr ⟨q, rfl, rfl, rfl⟩)
    | none => exact .inr (.inl ⟨rfl, rfl, rfl⟩)

/-- A field that is no link is what it was after `unlink`. -/
theorem unlink_field (hy : ∀ r v, g { r with yptr := v } = g r)
    (ho : ∀ r v, g { r with optr := v } = g r) (hc : ∀ r v, g { r with cptr := v } = g r)
    (p x : ℕ) : g ((s.unlink p).proc x) = g (s.proc x) := by
  have hset := s.setYptr_field hy (s.proc p).optr (s.proc p).yptr x
  rcases s.unlink_cases p with ⟨y, -, heq⟩ | ⟨-, -, heq⟩ | ⟨q, -, -, heq⟩
  · rw [heq, setProc_field _ y fun r ↦ ho r _, hset]
  · rw [heq, hset]
  · rw [heq, setProc_field _ q fun r ↦ hc r _, hset]

theorem unlink_yptr (p x : ℕ) : ((s.unlink p).proc x).yptr =
    if (s.proc p).optr = some x then (s.proc p).yptr else (s.proc x).yptr := by
  rcases s.unlink_cases p with ⟨y, -, heq⟩ | ⟨-, -, heq⟩ | ⟨q, -, -, heq⟩
  · rw [heq, assignOptr_yptr, setYptr_yptr]
  · rw [heq, setYptr_yptr]
  · rw [heq, assignCptr_yptr, setYptr_yptr]

theorem unlink_optr (p x : ℕ) : ((s.unlink p).proc x).optr =
    if (s.proc p).yptr = some x then (s.proc p).optr else (s.proc x).optr := by
  have hset := s.setYptr_field (g := Proc.optr) (fun _ _ ↦ rfl) (s.proc p).optr (s.proc p).yptr
  rcases s.unlink_cases p with ⟨y, hy, heq⟩ | ⟨hy, -, heq⟩ | ⟨q, hy, -, heq⟩
  · rw [heq, assignOptr_optr, hset, hy]
    by_cases hx : x = y
    · rw [if_pos hx, if_pos (by rw [hx])]
    · rw [if_neg hx, if_neg fun h ↦ hx (Option.some.inj h).symm]
  · rw [heq, hset, hy, if_neg (Option.some_ne_none x).symm]
  · rw [heq, assignCptr_optr, hset, hy, if_neg (Option.some_ne_none x).symm]

theorem unlink_cptr (p x : ℕ) : ((s.unlink p).proc x).cptr =
    if (s.proc p).yptr = none ∧ (s.proc p).parent = some x then (s.proc p).optr
    else (s.proc x).cptr := by
  have hset := s.setYptr_field (g := Proc.cptr) (fun _ _ ↦ rfl) (s.proc p).optr (s.proc p).yptr
  rcases s.unlink_cases p with ⟨y, hy, heq⟩ | ⟨-, hpar, heq⟩ | ⟨q, hy, hpar, heq⟩
  · rw [heq, assignOptr_cptr, hset, hy, if_neg fun h ↦ Option.some_ne_none y h.1]
  · rw [heq, hset, hpar, if_neg fun h ↦ Option.some_ne_none x h.2.symm]
  · rw [heq, assignCptr_cptr, hset, hy, hpar]
    by_cases hx : x = q
    · rw [if_pos hx, if_pos ⟨rfl, by rw [hx]⟩]
    · rw [if_neg hx, if_neg fun h ↦ hx (Option.some.inj h.2).symm]

/-- The assignments of `unlink` are to process structures. -/
theorem unlink_eq (p : ℕ) : ∃ f, s.unlink p = { s with proc := f } := by
  rcases s.unlink_cases p with ⟨y, -, heq⟩ | ⟨-, -, heq⟩ | ⟨q, -, -, heq⟩ <;> rw [heq] <;>
    cases (s.proc p).optr <;> exact ⟨_, rfl⟩

end Fields

/-! ## The lists of children -/

section Lists

variable {s : Kernel} {p q : ℕ} {l : List ℕ}

/-- The list that `p` is put in front of. -/
theorem adopt_links (hfirst : (s.proc q).cptr = l.head?)
    (h : Siblings (fun x ↦ (s.proc x).optr) (fun x ↦ (s.proc x).yptr) none l) (hnodup : l.Nodup)
    (hp : p ∉ l) : Siblings (fun x ↦ ((s.adopt p q).proc x).optr)
      (fun x ↦ ((s.adopt p q).proc x).yptr) none (p :: l) := by
  have hne : ∀ y ∈ l, y ≠ p := by
    rintro y hy rfl
    exact hp hy
  refine h.push hp hnodup ?_ (fun y hy ↦ ?_) ?_ (fun y hy ↦ ?_) fun y hy hyh ↦ ?_
  · rw [adopt_optr, if_pos rfl, hfirst]
  · rw [adopt_optr, if_neg (hne y hy)]
  · have hout : l.head? ≠ some p := fun hc ↦ hp (List.mem_of_mem_head? (Option.mem_def.mpr hc))
    rw [adopt_yptr, hfirst, if_neg hout, if_pos rfl]
  · rw [adopt_yptr, if_pos (hfirst.trans hy)]
  · rw [adopt_yptr, hfirst, if_neg hyh, if_neg (hne y hy)]

/-- Another list. -/
theorem adopt_links_of_ne {v : Option ℕ}
    (h : Siblings (fun x ↦ (s.proc x).optr) (fun x ↦ (s.proc x).yptr) v l) (hp : p ∉ l)
    (hq : ∀ y, (s.proc q).cptr = some y → y ∉ l) : Siblings (fun x ↦ ((s.adopt p q).proc x).optr)
      (fun x ↦ ((s.adopt p q).proc x).yptr) v l := by
  have hne : ∀ y ∈ l, y ≠ p := by
    rintro y hy rfl
    exact hp hy
  refine h.congr (fun y hy ↦ ?_) fun y hy ↦ ?_
  · rw [adopt_optr, if_neg (hne y hy)]
  · rw [adopt_yptr, if_neg fun hc ↦ hq y hc hy, if_neg (hne y hy)]

end Lists

/-- The children of every process form a list, which holds the processes on `proc_list` that have
it as their parent. -/
structure Family (s : Kernel) (kids : ℕ → List ℕ) : Prop where
  first : ∀ q, (s.proc q).cptr = (kids q).head?
  links : ∀ q, Siblings (fun p ↦ (s.proc p).optr) (fun p ↦ (s.proc p).yptr) none (kids q)
  nodup : ∀ q, (kids q).Nodup
  mem : ∀ q p, p ∈ kids q ↔ p ∈ s.procList ∧ (s.proc p).parent = some q

namespace Family

variable {s t : Kernel} {kids : ℕ → List ℕ} {p q : ℕ}

theorem congr (h : s.Family kids) (hlist : t.procList = s.procList)
    (hpar : ∀ p, (t.proc p).parent = (s.proc p).parent)
    (hc : ∀ p, (t.proc p).cptr = (s.proc p).cptr) (hy : ∀ p, (t.proc p).yptr = (s.proc p).yptr)
    (ho : ∀ p, (t.proc p).optr = (s.proc p).optr) : t.Family kids where
  first q := (hc q).trans (h.first q)
  links q := (h.links q).congr (fun x _ ↦ ho x) fun x _ ↦ hy x
  nodup := h.nodup
  mem q p := by rw [hlist, hpar, h.mem]

theorem kids_eq_nil (h : s.Family kids) : (s.proc q).cptr = none ↔ kids q = [] := by
  rw [h.first, List.head?_eq_none_iff]

/-- A process is a child of one process only. -/
theorem unique (h : s.Family kids) {r y : ℕ} (hr : y ∈ kids r) (hq : y ∈ kids q) : r = q := by
  have hy := ((h.mem q y).mp hq).2
  rw [((h.mem r y).mp hr).2] at hy
  exact Option.some.inj hy

/-- The first child of a process is one of its children. -/
theorem head_mem (h : s.Family kids) {y : ℕ} (hy : (s.proc q).cptr = some y) : y ∈ kids q :=
  List.mem_of_mem_head? (Option.mem_def.mpr ((h.first q) ▸ hy))

/-- `set_links`. -/
theorem setLinks (h : s.Family kids) (hp : p ∉ s.procList) (hpar : (s.proc p).parent = some q) :
    (s.setLinks p q).Family fun r ↦ if r = q then p :: kids q else kids r := by
  have hnot : ∀ r, p ∉ kids r := fun r hr ↦ hp ((h.mem r p).mp hr).1
  obtain ⟨f, hf⟩ := s.adopt_eq p q
  refine ⟨fun r ↦ ?_, fun r ↦ ?_, fun r ↦ ?_, fun r x ↦ ?_⟩
  · change ((s.adopt p q).proc r).cptr = _
    rw [adopt_cptr]
    by_cases hr : r = q
    · rw [if_pos hr, if_pos hr, List.head?_cons]
    · rw [if_neg hr, if_neg hr, h.first]
  · change Siblings (fun x ↦ ((s.adopt p q).proc x).optr)
      (fun x ↦ ((s.adopt p q).proc x).yptr) none _
    by_cases hr : r = q
    · rw [if_pos hr]
      exact adopt_links (h.first q) (h.links q) (h.nodup q) (hnot q)
    · rw [if_neg hr]
      exact adopt_links_of_ne (h.links r) (hnot r) fun y hy hyr ↦ hr (h.unique hyr (h.head_mem hy))
  · split_ifs
    · exact List.nodup_cons.mpr ⟨hnot q, h.nodup q⟩
    · exact h.nodup r
  · have hparent : ((s.setLinks p q).proc x).parent = (s.proc x).parent :=
      s.setLinks_field (g := Proc.parent) p q (fun _ _ ↦ rfl) (fun _ _ ↦ rfl) (fun _ _ ↦ rfl) x
    rw [hparent]
    change _ ↔ x ∈ p :: s.procList ∧ _
    rw [List.mem_cons]
    by_cases hxp : x = p
    · rw [hxp, hpar, Option.some_inj]
      by_cases hr : r = q
      · rw [if_pos hr]
        exact ⟨fun _ ↦ ⟨.inl rfl, hr.symm⟩, fun _ ↦ List.mem_cons_self⟩
      · rw [if_neg hr]
        exact ⟨fun hc ↦ absurd hc (hnot r), fun hc ↦ absurd hc.2.symm hr⟩
    · by_cases hr : r = q
      · rw [if_pos hr, List.mem_cons, or_iff_right hxp, or_iff_right hxp, h.mem, hr]
      · rw [if_neg hr, or_iff_right hxp, h.mem]

/-- `remove_links`. -/
theorem removeLinks (h : s.Family kids) (hp : p ∈ s.procList) (hnd : s.procList.Nodup)
    (hpar : (s.proc p).parent = some q) :
    (s.removeLinks p).Family fun r ↦ if r = q then (kids q).erase p else kids r := by
  have hpq : p ∈ kids q := (h.mem q p).mpr ⟨hp, hpar⟩
  obtain ⟨f, hf⟩ := s.unlink_eq p
  have hlist : (s.unlink p).procList = s.procList := by rw [hf]
  have hnext : ∀ y, (s.proc p).optr = some y → y ∈ kids q := fun y ↦ (h.links q).next_mem hpq
  have hprev : ∀ y, (s.proc p).yptr = some y → y ∈ kids q := fun y hy ↦
    ((h.links q).prev_mem hpq hy).resolve_right (Option.some_ne_none y).symm
  refine ⟨fun r ↦ ?_, fun r ↦ ?_, fun r ↦ ?_, fun r x ↦ ?_⟩
  · change ((s.unlink p).proc r).cptr = _
    rw [unlink_cptr, hpar]
    by_cases hr : r = q
    · have hyoung : (s.proc p).yptr = none ↔ (kids q).head? = some p := by
        cases hk : kids q with
        | nil => exact absurd (hk ▸ hpq) List.not_mem_nil
        | cons y l =>
          have hl := h.links q
          have hnodup := h.nodup q
          rw [hk] at hl hpq hnodup
          rw [List.head?_cons, Option.some_inj]
          constructor
          · intro hnone
            by_contra hyp
            have hmem : p ∈ l := (List.mem_cons.mp hpq).resolve_left (Ne.symm hyp)
            -- a member other than the first has the one before it
            obtain ⟨z, hz⟩ : ∃ z, (s.proc p).yptr = some z := hl.2.2.exists_prev hmem
            rw [hnone] at hz
            cases hz
          · rintro rfl
            exact hl.1
      rw [if_pos hr, hr, (h.links q).head_erase]
      by_cases hhead : (kids q).head? = some p
      · rw [if_pos hhead, if_pos ⟨hyoung.mpr hhead, rfl⟩]
      · rw [if_neg hhead, if_neg fun hc ↦ hhead (hyoung.mp hc.1), h.first]
    · rw [if_neg hr, if_neg fun hc ↦ hr (Option.some.inj hc.2).symm, h.first]
  · change Siblings (fun x ↦ ((s.unlink p).proc x).optr) (fun x ↦ ((s.unlink p).proc x).yptr) _ _
    by_cases hr : r = q
    · rw [if_pos hr]
      exact (h.links q).remove hpq (h.nodup q) (fun z hz ↦ absurd hz (Option.some_ne_none z).symm)
        (fun z ↦ s.unlink_optr p z) fun z ↦ s.unlink_yptr p z
    · rw [if_neg hr]
      refine (h.links r).congr (fun y hy ↦ ?_) fun y hy ↦ ?_
      · rw [unlink_optr, if_neg fun hc ↦ hr (h.unique hy (hprev y hc))]
      · rw [unlink_yptr, if_neg fun hc ↦ hr (h.unique hy (hnext y hc))]
  · split_ifs
    · exact (h.nodup q).erase p
    · exact h.nodup r
  · have hparent : ((s.removeLinks p).proc x).parent = (s.proc x).parent :=
      s.unlink_field (g := Proc.parent) (fun _ _ ↦ rfl) (fun _ _ ↦ rfl) (fun _ _ ↦ rfl) p x
    rw [hparent]
    change _ ↔ x ∈ (s.unlink p).procList.erase p ∧ _
    rw [hlist, hnd.mem_erase_iff]
    by_cases hr : r = q
    · rw [if_pos hr, (h.nodup q).mem_erase_iff, h.mem, hr, and_assoc]
    · rw [if_neg hr, h.mem]
      refine ⟨fun hx ↦ ⟨⟨?_, hx.1⟩, hx.2⟩, fun hx ↦ ⟨hx.1.2, hx.2⟩⟩
      rintro rfl
      rw [hpar] at hx
      exact hr (Option.some.inj hx.2).symm

end Family

end Kernel

end Ucore
