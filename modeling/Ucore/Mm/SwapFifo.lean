import Ucore.Lib.Ring

/-!
# The FIFO swap manager

`swap_fifo.c` queues the pages that may be swapped out on a circular list and hands out the one at
the front. The list head is the one global `pra_list_head`: `_fifo_init_mm` empties it and makes
`sm_priv` of the address space point to it, so all address spaces have their pages on the same ring.
An entry of the list is `some p`, the `pra_page_link` of the page `p`, or `none`, the list head.

## What is compared

A run is compared with what a queue for each address space would do. `Served` says that the victims
chosen for an address space are its pages in the order in which they were made swappable, each once,
and that the ring holds the pages that its queue holds, in that order. `Fits` is the condition on a
call: an address space is set up while no page waits, a page is not queued twice, and a victim is
asked for by the address space whose page has waited longest. A run is served after every call
exactly when every call meets it (`run_served`), and the invariant of such a run, `Inv`, is that the
ring is the list of all waiting pages.
-/

namespace Ucore

variable {M P : Type*}

/-- The list entries, and where `sm_priv` of each address space points, `none` for a null
pointer. -/
structure SwapFifo (M P : Type*) where
  links : Links (Option P)
  smPriv : M → Option (Option P)

/-- The calls of the swap manager. -/
inductive SwapCall (M P : Type*)
  | initMm (mm : M)
  | mapSwappable (mm : M) (addr : ℕ) (page : P) (swapIn : ℤ)
  | swapOutVictim (mm : M) (inTick : ℤ)

/-- What a call answers: its return value and what it stores through `ptr_page`, the page around an
entry. The list head is not inside a page: `some none` is an address that is no page. -/
structure SwapAnswer (P : Type*) where
  ret : ℤ
  ptrPage : Option (Option P)

namespace SwapFifo

variable [DecidableEq M] [DecidableEq P]

/-! ## The calls -/

def listInit (L : Links (Option P)) (elm : Option P) : Links (Option P) where
  next := Function.update L.next elm elm
  prev := Function.update L.prev elm elm

def fifoInitMm (s : SwapFifo M P) (mm : M) : SwapFifo M P × SwapAnswer P :=
  ({ links := listInit s.links none, smPriv := Function.update s.smPriv mm (some none) },
    ⟨0, none⟩)

/-- `_fifo_map_swappable`, `none` when its assertion fails. -/
def fifoMapSwappable (s : SwapFifo M P) (mm : M) (_addr : ℕ) (page : P) (_swapIn : ℤ) :
    Option (SwapFifo M P × SwapAnswer P) :=
  match s.smPriv mm with
  | none => none
  | some head =>
    -- `list_add_before(head, entry)`
    some ({ s with links := s.links.link (some page) (s.links.prev head) head }, ⟨0, none⟩)

/-- `_fifo_swap_out_victim`, `none` when one of its assertions fails. -/
def fifoSwapOutVictim (s : SwapFifo M P) (mm : M) (inTick : ℤ) :
    Option (SwapFifo M P × SwapAnswer P) :=
  match s.smPriv mm with
  | none => none
  | some head =>
    if inTick = 0 then
      let entry := s.links.next head
      -- `list_del(entry)`
      some ({ s with links := s.links.bridge (s.links.prev entry) (s.links.next entry) },
        ⟨0, some entry⟩)
    else none

/-- One call. -/
def call (s : SwapFifo M P) : SwapCall M P → Option (SwapFifo M P × SwapAnswer P)
  | .initMm mm => some (s.fifoInitMm mm)
  | .mapSwappable mm addr page swapIn => s.fifoMapSwappable mm addr page swapIn
  | .swapOutVictim mm inTick => s.fifoSwapOutVictim mm inTick

/-- A sequence of calls with their answers, from a state in which no address space has a queue. -/
inductive Run : List (SwapCall M P × SwapAnswer P) → SwapFifo M P → Prop
  | nil {s : SwapFifo M P} (h : s.smPriv = fun _ ↦ none) : Run [] s
  | snoc {t : List (SwapCall M P × SwapAnswer P)} {s s' : SwapFifo M P} {c : SwapCall M P}
      {a : SwapAnswer P} (h : Run t s) (hc : s.call c = some (s', a)) : Run (t ++ [(c, a)]) s'

/-! ## A queue for each address space -/

/-- The page that a call makes swappable for `mm`. -/
def mappedBy (mm : M) : SwapCall M P × SwapAnswer P → Option P
  | (.mapSwappable m _ page _, _) => if m = mm then some page else none
  | _ => none

/-- What a call chose for `mm`, when it reported success. -/
def chosenBy (mm : M) : SwapCall M P × SwapAnswer P → Option (Option P)
  | (.swapOutVictim m _, a) => if m = mm ∧ a.ret = 0 then a.ptrPage else none
  | _ => none

/-- The pages made swappable for `mm`, in the order of the calls. -/
def mapped (t : List (SwapCall M P × SwapAnswer P)) (mm : M) : List P := t.filterMap (mappedBy mm)

/-- The victims chosen for `mm`, in the order of the calls. -/
def chosen (t : List (SwapCall M P × SwapAnswer P)) (mm : M) : List (Option P) :=
  t.filterMap (chosenBy mm)

/-- The queue of `mm`: the pages made swappable for it of which none was chosen so far. -/
def queue (t : List (SwapCall M P × SwapAnswer P)) (mm : M) : List P :=
  (mapped t mm).drop (chosen t mm).length

/-- What one queue for each address space means after the calls of `t`. A call that reports success
on an empty queue would make the victims more than the pages, so `exact` also says that such a call
fails. -/
structure Served (t : List (SwapCall M P × SwapAnswer P)) (s : SwapFifo M P) : Prop where
  /-- The victims chosen for an address space are its pages, in order, each once. -/
  exact (mm : M) : chosen t mm <+: (mapped t mm).map some
  /-- The pages on the list are those of the queues, and each queue is on it in its order. -/
  kept (mm : M) (hmm : s.smPriv mm ≠ none) : ∃ head, s.smPriv mm = some head ∧
    ∃ order : List (M × P), s.links.Ring head (order.map fun x ↦ some x.2) ∧
      ∀ m, (order.filter fun x ↦ x.1 = m).map Prod.snd = queue t m

/-! ## When the shared list does -/

/-- The pages that wait, with the address spaces they were made swappable for, oldest first. -/
def waiting : List (SwapCall M P × SwapAnswer P) → List (M × P) :=
  List.foldl (fun w e ↦ match e.1 with
    | .initMm _ => w
    | .mapSwappable mm _ page _ => w ++ [(mm, page)]
    | .swapOutVictim _ _ => w.tail) []

/-- The condition on a call, after the calls of `t`: an address space is only set up while no page
waits, a page is not made swappable while it waits, and a victim is only asked for by the address
space whose page has waited longest. -/
def Fits (t : List (SwapCall M P × SwapAnswer P)) : SwapCall M P → Prop
  | .initMm _ => waiting t = []
  | .mapSwappable _ _ page _ => ∀ x ∈ waiting t, x.2 ≠ page
  | .swapOutVictim mm _ => ∃ page rest, waiting t = (mm, page) :: rest

/-- Every call of `t` met the condition. -/
def Orderly (t : List (SwapCall M P × SwapAnswer P)) : Prop :=
  ∀ t₁ c a t₂, t = t₁ ++ (c, a) :: t₂ → Fits t₁ c

omit [DecidableEq M] [DecidableEq P] in
theorem Orderly.init {t : List (SwapCall M P × SwapAnswer P)} {c : SwapCall M P} {a : SwapAnswer P}
    (h : Orderly (t ++ [(c, a)])) : Orderly t := by
  intro t₁ c' a' t₂ ht
  apply h t₁ c' a' (t₂ ++ [(c, a)])
  rw [ht, List.append_assoc, List.cons_append]

omit [DecidableEq M] [DecidableEq P] in
theorem Orderly.last {t : List (SwapCall M P × SwapAnswer P)} {c : SwapCall M P} {a : SwapAnswer P}
    (h : Orderly (t ++ [(c, a)])) : Fits t c := h t c a [] rfl

omit [DecidableEq M] [DecidableEq P] in
theorem Orderly.nil : Orderly ([] : List (SwapCall M P × SwapAnswer P)) :=
  fun _ _ _ _ ht ↦ absurd ht (List.append_ne_nil_of_right_ne_nil _ (List.cons_ne_nil _ _)).symm

omit [DecidableEq M] [DecidableEq P] in
theorem Orderly.snoc {t : List (SwapCall M P × SwapAnswer P)} {c : SwapCall M P} {a : SwapAnswer P}
    (h : Orderly t) (hc : Fits t c) : Orderly (t ++ [(c, a)]) := by
  intro t₁ c' a' t₂ ht
  rcases List.eq_nil_or_concat t₂ with rfl | ⟨t₃, e, rfl⟩
  · obtain ⟨rfl, he⟩ := List.append_inj' ht rfl
    obtain ⟨rfl, -⟩ := Prod.mk.inj (List.head_eq_of_cons_eq he)
    exact hc
  · rw [List.concat_eq_append, ← List.cons_append, ← List.append_assoc] at ht
    exact h t₁ c' a' t₃ (List.append_inj' ht rfl).1

/-! ### What one call adds -/

section Snoc

variable (t : List (SwapCall M P × SwapAnswer P)) (mm m : M) (addr : ℕ) (page : P) (k : ℤ)
  (a : SwapAnswer P)

omit [DecidableEq P] in
theorem mapped_snoc (e : SwapCall M P × SwapAnswer P) :
    mapped (t ++ [e]) m = mapped t m ++ (mappedBy m e).toList := by
  rw [mapped, List.filterMap_append]
  cases h : mappedBy m e <;> simp [mapped, h]

omit [DecidableEq P] in
theorem chosen_snoc (e : SwapCall M P × SwapAnswer P) :
    chosen (t ++ [e]) m = chosen t m ++ (chosenBy m e).toList := by
  rw [chosen, List.filterMap_append]
  cases h : chosenBy m e <;> simp [chosen, h]

omit [DecidableEq M] [DecidableEq P] in
@[simp] theorem waiting_snoc_initMm : waiting (t ++ [(.initMm mm, a)]) = waiting t := by
  simp [waiting]

omit [DecidableEq M] [DecidableEq P] in
@[simp] theorem waiting_snoc_mapSwappable :
    waiting (t ++ [(.mapSwappable mm addr page k, a)]) = waiting t ++ [(mm, page)] := by
  simp [waiting]

omit [DecidableEq M] [DecidableEq P] in
@[simp] theorem waiting_snoc_swapOutVictim :
    waiting (t ++ [(.swapOutVictim mm k, a)]) = (waiting t).tail := by
  simp [waiting]

end Snoc

/-- The waiting pages of an address space. -/
def waitingFor (t : List (SwapCall M P × SwapAnswer P)) (mm : M) : List P :=
  ((waiting t).filter fun x ↦ x.1 = mm).map Prod.snd

/-- What holds along an orderly run: the list is the waiting pages, and what was made swappable for
an address space is what was chosen for it and what waits for it. -/
structure Inv (t : List (SwapCall M P × SwapAnswer P)) (s : SwapFifo M P) : Prop where
  shared : ∀ mm head, s.smPriv mm = some head → head = none
  ring : ∀ mm, s.smPriv mm ≠ none → s.links.Ring none ((waiting t).map fun x ↦ some x.2)
  split : ∀ mm, (mapped t mm).map some = chosen t mm ++ (waitingFor t mm).map some

namespace Inv

variable {t : List (SwapCall M P × SwapAnswer P)} {s s' : SwapFifo M P} {a : SwapAnswer P}

omit [DecidableEq P] in
theorem queue_eq (h : Inv t s) (mm : M) : queue t mm = waitingFor t mm := by
  apply List.map_injective_iff.mpr (Option.some_injective P)
  rw [queue, List.map_drop, h.split mm, List.drop_left]

omit [DecidableEq P] in
theorem served (h : Inv t s) : Served t s where
  exact mm := ⟨(waitingFor t mm).map some, (h.split mm).symm⟩
  kept mm hmm := by
    obtain ⟨head, hhead⟩ := Option.ne_none_iff_exists'.mp hmm
    have hnone := h.shared mm head hhead
    subst hnone
    refine ⟨none, hhead, waiting t, h.ring mm hmm, fun m ↦ ?_⟩
    rw [h.queue_eq m, waitingFor]

theorem initMm (h : Inv t s) (mm : M) (hfits : Fits t (.initMm mm))
    (hc : s.call (.initMm mm) = some (s', a)) : Inv (t ++ [(.initMm mm, a)]) s' := by
  have hw : waiting t = [] := hfits
  simp only [call, fifoInitMm, Option.some.injEq, Prod.mk.injEq] at hc
  obtain ⟨rfl, rfl⟩ := hc
  constructor
  · intro m head hm
    by_cases hmm : m = mm
    · subst hmm
      simpa using hm.symm
    · exact h.shared m head (by simpa [hmm] using hm)
  · intro m _
    rw [waiting_snoc_initMm, hw]
    exact ⟨by simp, by simp [listInit]⟩
  · intro m
    rw [mapped_snoc, chosen_snoc, waitingFor, waiting_snoc_initMm]
    simpa [mappedBy, chosenBy, waitingFor] using h.split m

theorem mapSwappable (h : Inv t s) (mm : M) (addr : ℕ) (page : P) (swapIn : ℤ)
    (hfits : Fits t (.mapSwappable mm addr page swapIn))
    (hc : s.call (.mapSwappable mm addr page swapIn) = some (s', a)) :
    Inv (t ++ [(.mapSwappable mm addr page swapIn, a)]) s' := by
  have hnew : ∀ x ∈ waiting t, x.2 ≠ page := hfits
  rw [call, fifoMapSwappable] at hc
  cases hhead : s.smPriv mm with
  | none => simp [hhead] at hc
  | some head =>
    have hnone := h.shared mm head hhead
    subst hnone
    simp only [hhead, Option.some.injEq, Prod.mk.injEq] at hc
    obtain ⟨rfl, rfl⟩ := hc
    have hring := h.ring mm (by simp [hhead])
    constructor
    · exact h.shared
    · intro m _
      rw [waiting_snoc_mapSwappable, List.map_append]
      -- the new entry goes between the last one and the list head
      have hring' : s.links.Ring none (((waiting t).map fun x ↦ some x.2) ++ []) := by
        rwa [List.append_nil]
      have hlink := hring'.link_before (e := some page)
        (by simpa using fun m' hp ↦ hnew (m', page) hp rfl)
      simpa using hlink
    · intro m
      rw [mapped_snoc, chosen_snoc, waitingFor, waiting_snoc_mapSwappable, List.map_append,
        h.split m, List.filter_append, List.map_append, List.map_append]
      by_cases hm : mm = m <;> simp [mappedBy, chosenBy, waitingFor, hm]

theorem swapOutVictim (h : Inv t s) (mm : M) (inTick : ℤ)
    (hfits : Fits t (.swapOutVictim mm inTick))
    (hc : s.call (.swapOutVictim mm inTick) = some (s', a)) :
    Inv (t ++ [(.swapOutVictim mm inTick, a)]) s' := by
  obtain ⟨page, rest, hw⟩ := hfits
  rw [call, fifoSwapOutVictim] at hc
  cases hhead : s.smPriv mm with
  | none => simp [hhead] at hc
  | some head =>
    have hnone := h.shared mm head hhead
    subst hnone
    simp only [hhead] at hc
    split_ifs at hc with htick
    simp only [Option.some.injEq, Prod.mk.injEq] at hc
    obtain ⟨rfl, rfl⟩ := hc
    have hring := h.ring mm (by simp [hhead])
    rw [hw, List.map_cons] at hring
    have hfirst : s.links.next none = some page := hring.next_head
    rw [hfirst]
    constructor
    · exact h.shared
    · intro m _
      rw [waiting_snoc_swapOutVictim, hw, List.tail_cons]
      rw [← List.nil_append (_ :: _)] at hring
      exact hring.bridge_mem
    · intro m
      rw [mapped_snoc, chosen_snoc, waitingFor, waiting_snoc_swapOutVictim, List.map_append,
        h.split m, waitingFor, hw, List.tail_cons]
      by_cases hm : mm = m <;> simp [mappedBy, chosenBy, hm]

end Inv

theorem Run.inv {t : List (SwapCall M P × SwapAnswer P)} {s : SwapFifo M P} (h : Run t s)
    (ho : Orderly t) : Inv t s := by
  induction h with
  | nil hpriv =>
    constructor
    · intro mm head hmm
      simp [hpriv] at hmm
    · intro mm hmm
      simp [hpriv] at hmm
    · intro mm
      rfl
  | @snoc t s s' c a hrun hc ih =>
    have hinv := ih ho.init
    have hfits := ho.last
    cases c with
    | initMm mm => exact hinv.initMm mm hfits hc
    | mapSwappable mm addr page swapIn => exact hinv.mapSwappable mm addr page swapIn hfits hc
    | swapOutVictim mm inTick => exact hinv.swapOutVictim mm inTick hfits hc

/-- **A queue for each address space.** As long as an address space is only set up while no page
waits, no page is made swappable while it waits and victims are only asked for by the address space
whose page has waited longest, every state reached serves each address space from its own queue. -/
theorem run_served {t : List (SwapCall M P × SwapAnswer P)} {s : SwapFifo M P} (h : Run t s)
    (ho : Orderly t) : Served t s := (h.inv ho).served

/-! ### Two address spaces on one list -/

/-- The state before any address space is set up. -/
def boot : SwapFifo ℕ ℕ where
  links := { next := id, prev := id }
  smPriv := fun _ ↦ none

/-- Address spaces 1 and 2 are set up, and page 7 is made swappable for 1. -/
def oneMapped : List (SwapCall ℕ ℕ × SwapAnswer ℕ) :=
  [(.initMm 1, ⟨0, none⟩), (.initMm 2, ⟨0, none⟩), (.mapSwappable 1 4096 7 0, ⟨0, none⟩)]

theorem run_oneMapped : ∃ s : SwapFifo ℕ ℕ, Run oneMapped s ∧ s.smPriv 1 = some none ∧
    s.smPriv 2 = some none ∧ s.links.next none = some 7 :=
  ⟨_, ((Run.nil (s := boot) rfl).snoc rfl).snoc rfl |>.snoc rfl, rfl, rfl, rfl⟩

theorem orderly_oneMapped : Orderly oneMapped := by
  refine Orderly.snoc (t := oneMapped.take 2) (Orderly.snoc (t := oneMapped.take 1) ?_ rfl) ?_
  · exact Orderly.nil.snoc (c := .initMm 1) rfl
  · exact fun x hx ↦ absurd hx List.not_mem_nil

/-- Address space 1 asks for a victim and gets its page. -/
theorem served_oneMapped : ∃ s : SwapFifo ℕ ℕ,
    Run (oneMapped ++ [(.swapOutVictim 1 0, ⟨0, some (some 7)⟩)]) s ∧
      Served (oneMapped ++ [(.swapOutVictim 1 0, ⟨0, some (some 7)⟩)]) s := by
  obtain ⟨s, hrun, hpriv, -, hnext⟩ := run_oneMapped
  have hcall : s.call (.swapOutVictim 1 0) =
      some ({ s with links := s.links.bridge (s.links.prev (some 7)) (s.links.next (some 7)) },
        ⟨0, some (some 7)⟩) := by
    simp [call, fifoSwapOutVictim, hpriv, hnext]
  exact ⟨_, hrun.snoc hcall, run_served (hrun.snoc hcall) (orderly_oneMapped.snoc ⟨7, [], rfl⟩)⟩

/-- Address space 2, which has no page, asks for a victim and gets the page of 1. -/
theorem victim_of_another : ∃ s : SwapFifo ℕ ℕ,
    Run (oneMapped ++ [(.swapOutVictim 2 0, ⟨0, some (some 7)⟩)]) s ∧
      ¬Served (oneMapped ++ [(.swapOutVictim 2 0, ⟨0, some (some 7)⟩)]) s := by
  obtain ⟨s, hrun, -, hpriv, hnext⟩ := run_oneMapped
  have hcall : s.call (.swapOutVictim 2 0) =
      some ({ s with links := s.links.bridge (s.links.prev (some 7)) (s.links.next (some 7)) },
        ⟨0, some (some 7)⟩) := by
    simp [call, fifoSwapOutVictim, hpriv, hnext]
  exact ⟨_, hrun.snoc hcall, fun hserved ↦ absurd (hserved.exact 2) (by decide)⟩

end SwapFifo

end Ucore
