import Ucore.Mm.FreeArea

/-!
# The free list of the page allocators

The free list represents a sorted list of maximal extents, and the three routines of an allocator
act on the set of free pages as on any set: a region is added, a run of pages is taken out, a run of
pages is put back.

## The representation

`Listed s xs` is about links and descriptors only: the ring of `page_link` goes through the first
pages of the blocks `xs`, each of them has the size of its block, no other page is marked as the
start of a block, and `nr_free` is the sum of the sizes. It is kept by an edit of one block,
wherever that stands in the list, and the loops are evaluated under it. `Rep` adds what the blocks
mean: they are the maximal runs of free pages among the managed ones.

## The insertion

The loop looks for the first block behind the new one. Where it reaches the last block it links the
new one behind it and then goes on, unless there is a `break`: the next node is the new block, which
is linked once more. `Clear` says that it does not come to that, since the new block goes into an
empty list or in front of another one, or the manager leaves the loop.
-/

namespace Ucore

open Prog Extents

/-! ## Listed blocks -/

/-- The list entries of the blocks `xs`. -/
def nodes (xs : List (ℕ × ℕ)) : List (Option ℕ) := xs.map fun x ↦ some x.1

@[simp] theorem nodes_nil : nodes [] = [] := rfl

@[simp] theorem nodes_cons (x : ℕ × ℕ) (xs : List (ℕ × ℕ)) :
    nodes (x :: xs) = some x.1 :: nodes xs := rfl

@[simp] theorem nodes_append (xs ys : List (ℕ × ℕ)) : nodes (xs ++ ys) = nodes xs ++ nodes ys :=
  List.map_append

@[simp] theorem length_nodes (xs : List (ℕ × ℕ)) : (nodes xs).length = xs.length :=
  List.length_map _

theorem some_mem_nodes {p : ℕ} {xs : List (ℕ × ℕ)} : some p ∈ nodes xs ↔ ∃ x ∈ xs, x.1 = p := by
  rw [nodes, List.mem_map]
  simp only [Option.some.injEq]

theorem exists_mem_middle {us vs : List (ℕ × ℕ)} {y : ℕ × ℕ} {P : ℕ × ℕ → Prop} :
    (∃ x ∈ us ++ y :: vs, P x) ↔ P y ∨ ∃ x ∈ us ++ vs, P x := by
  simp only [List.mem_append, List.mem_cons, or_and_right, exists_or, exists_eq_left]
  exact or_left_comm

namespace FreeArea

/-- The free list holds the blocks `xs`. -/
structure Listed (s : FreeArea) (xs : List (ℕ × ℕ)) : Prop where
  ring : s.links.Ring none (nodes xs)
  size : ∀ x ∈ xs, (s.page x.1).property = x.2
  head : ∀ p, (s.page p).pageProperty = true ↔ ∃ x ∈ xs, x.1 = p
  nrFree : s.nrFree = (xs.map Prod.snd).sum

namespace Listed

variable {s : FreeArea} {xs us vs : List (ℕ × ℕ)} {b n : ℕ}

theorem boot (npage : ℕ) : (FreeArea.boot npage).Listed [] where
  ring := ⟨List.nodup_singleton _, rfl, rfl⟩
  size _ h := absurd h List.not_mem_nil
  head p := by simp [FreeArea.boot]
  nrFree := rfl

/-- Pages that start no block may change as long as none becomes the start of one. -/
theorem setPages (h : s.Listed xs) {f : Page → Page} (hf : ∀ p, (f p).pageProperty = false)
    (hout : ∀ x ∈ xs, ¬(b ≤ x.1 ∧ x.1 < b + n)) : (s.setPages b n f).Listed xs where
  ring := h.ring
  size x hx := by rw [s.setPages_page_of_notMem (hout x hx), h.size x hx]
  head p := by
    by_cases hp : b ≤ p ∧ p < b + n
    · rw [s.setPages_page_of_mem hp, hf]
      refine ⟨fun hh ↦ absurd hh Bool.false_ne_true, ?_⟩
      rintro ⟨x, hx, rfl⟩
      exact absurd hp (hout x hx)
    · rw [s.setPages_page_of_notMem hp, h.head]
  nrFree := h.nrFree

theorem sum_insert (us vs : List (ℕ × ℕ)) (x : ℕ × ℕ) :
    ((us ++ x :: vs).map Prod.snd).sum = ((us ++ vs).map Prod.snd).sum + x.2 := by
  simp only [List.map_append, List.map_cons, List.sum_append, List.sum_cons]
  omega

/-- A new block, once its entry is linked in. -/
theorem insert (h : s.Listed (us ++ vs)) (hb : ∀ x ∈ us ++ vs, x.1 ≠ b) {L : Links (Option ℕ)}
    (hL : L.Ring none (nodes (us ++ (b, n) :: vs))) :
    ((Pmm.markFree b n s).setLinks L).Listed (us ++ (b, n) :: vs) where
  ring := hL
  size x hx := by
    simp only [Pmm.markFree, setLinks_page, setFree_page, setPage_page]
    rcases List.mem_append.mp hx with hu | hv
    · have hmem := List.mem_append_left vs hu
      rw [Function.update_of_ne (hb x hmem), h.size x hmem]
    · rcases List.mem_cons.mp hv with rfl | hv
      · rw [Function.update_self]
      · have hmem := List.mem_append_right us hv
        rw [Function.update_of_ne (hb x hmem), h.size x hmem]
  head p := by
    simp only [Pmm.markFree, setLinks_page, setFree_page, setPage_page]
    rw [exists_mem_middle]
    rcases eq_or_ne p b with rfl | hp
    · rw [Function.update_self]
      exact ⟨fun _ ↦ .inl rfl, fun _ ↦ rfl⟩
    · rw [Function.update_of_ne hp, h.head]
      exact ⟨.inr, fun hh ↦ hh.resolve_left (Ne.symm hp)⟩
  nrFree := by
    rw [sum_insert, ← h.nrFree]
    rfl

/-- The other blocks are not entered under the number of this one. -/
theorem ne_of_mem (h : s.Listed (us ++ (b, n) :: vs)) : ∀ x ∈ us ++ vs, x.1 ≠ b := by
  have hnodup := h.ring.nodup
  have hperm : (nodes (us ++ (b, n) :: vs)).Perm (some b :: nodes (us ++ vs)) := by
    simp only [nodes_append, nodes_cons]
    exact List.perm_middle
  have hnot : some b ∉ nodes (us ++ vs) :=
    (List.nodup_cons.mp (hperm.nodup_iff.mp (List.nodup_cons.mp hnodup).2)).1
  intro x hx heq
  exact hnot (some_mem_nodes.mpr ⟨x, hx, heq⟩)

theorem size_mem (h : s.Listed (us ++ (b, n) :: vs)) : (s.page b).property = n :=
  h.size (b, n) (List.mem_append_right us List.mem_cons_self)

/-- A block taken out of the list and unmarked. -/
theorem remove (h : s.Listed (us ++ (b, n) :: vs)) :
    (((s.listDel (some b)).setFree (s.nrFree - n)).setPage b fun p ↦
      { p with pageProperty := false }).Listed (us ++ vs) where
  ring := by
    have hring := h.ring
    rw [nodes_append, nodes_cons] at hring
    rw [nodes_append]
    exact hring.bridge_mem
  size x hx := by
    have hmem : x ∈ us ++ (b, n) :: vs := by
      rcases List.mem_append.mp hx with hu | hv
      · exact List.mem_append_left _ hu
      · exact List.mem_append_right us (List.mem_cons_of_mem _ hv)
    simp only [listDel, setPage_page, setFree_page, setLinks_page]
    rw [Function.update_of_ne (h.ne_of_mem x hx), h.size x hmem]
  head p := by
    simp only [listDel, setPage_page, setFree_page, setLinks_page]
    rcases eq_or_ne p b with rfl | hp
    · rw [Function.update_self]
      refine ⟨fun hh ↦ absurd hh Bool.false_ne_true, ?_⟩
      rintro ⟨x, hx, heq⟩
      exact absurd heq (h.ne_of_mem x hx)
    · rw [Function.update_of_ne hp, h.head, exists_mem_middle]
      exact ⟨fun hh ↦ hh.resolve_left (Ne.symm hp), .inr⟩
  nrFree := by
    have hsum := h.nrFree
    rw [sum_insert] at hsum
    rw [setPage_nrFree, setFree_nrFree, hsum, Nat.add_sub_cancel_right]

/-- A block changes its size. -/
theorem resize (h : s.Listed (us ++ (b, n) :: vs)) {f : Page → Page} {m : ℕ}
    (hsize : (f (s.page b)).property = m)
    (hhead : (f (s.page b)).pageProperty = (s.page b).pageProperty) :
    ((s.setPage b f).setFree (s.nrFree - n + m)).Listed (us ++ (b, m) :: vs) where
  ring := by
    have hring := h.ring
    rw [nodes_append, nodes_cons] at hring ⊢
    exact hring
  size x hx := by
    rw [setFree_page, setPage_page]
    rcases List.mem_append.mp hx with hu | hv
    · rw [Function.update_of_ne (h.ne_of_mem x (List.mem_append_left vs hu)),
        h.size x (List.mem_append_left _ hu)]
    · rcases List.mem_cons.mp hv with rfl | hv
      · rw [Function.update_self, hsize]
      · rw [Function.update_of_ne (h.ne_of_mem x (List.mem_append_right us hv)),
          h.size x (List.mem_append_right us (List.mem_cons_of_mem _ hv))]
  head p := by
    have hhead' := h.head p
    rw [exists_mem_middle] at hhead' ⊢
    rw [setFree_page, setPage_page]
    rcases eq_or_ne p b with rfl | hp
    · rw [Function.update_self, hhead, hhead']
    · rw [Function.update_of_ne hp, hhead']
  nrFree := by
    have hsum := h.nrFree
    rw [sum_insert] at hsum ⊢
    rw [setFree_nrFree, hsum, Nat.add_sub_cancel_right]

theorem le_nrFree (h : s.Listed (us ++ (b, n) :: vs)) : n ≤ s.nrFree := by
  rw [h.nrFree, sum_insert]
  exact Nat.le_add_left _ _

theorem le_nrFree_of_mem {x : ℕ × ℕ} (h : s.Listed xs) (hx : x ∈ xs) : x.2 ≤ s.nrFree := by
  obtain ⟨us, vs, rfl⟩ := List.append_of_mem hx
  exact h.le_nrFree

/-- The first `n` of the `m` pages of a block cut off. -/
theorem carve {m : ℕ} (h : s.Listed (us ++ (b, m) :: vs)) (hn : 0 < n) (hnm : n < m)
    (hfree : ∀ x ∈ us ++ vs, x.1 ≠ b + n) :
    (Pmm.carve b n s).Listed (us ++ (b + n, m - n) :: vs) := by
  have hring := h.remove.ring
  have hsize := h.size_mem
  have hle := h.le_nrFree
  have hprev : s.links.prev (some b) = (nodes us).getLastD none := by
    have hmem := h.ring
    rw [nodes_append, nodes_cons] at hmem
    exact hmem.prev_mem
  have hlinked := h.remove.insert (n := m - n) hfree
    (L := (s.listDel (some b)).links.link (some (b + n)) (s.links.prev (some b))
      ((s.listDel (some b)).links.next (s.links.prev (some b)))) (by
    rw [nodes_append] at hring
    rw [nodes_append, nodes_cons, hprev]
    refine hring.link_after ?_
    rw [List.mem_cons, ← nodes_append, some_mem_nodes]
    rintro (heq | ⟨x, hx, heq⟩)
    · cases heq
    · exact hfree x hx heq)
  have hne : b ≠ b + n := by omega
  convert hlinked using 1
  have hbranch : n < ((s.listDel (some b)).page b).property := by
    rw [listDel, setLinks_page, hsize]
    exact hnm
  rw [Pmm.carve]
  simp only [if_pos hbranch]
  simp only [listAdd, listDel, setPage, setLinks, setFree, Pmm.markFree, listPrev, hsize,
    Function.update_of_ne hne, Function.update_of_ne hne.symm, mk.injEq, true_and]
  refine ⟨Function.update_comm hne.symm _ _ _, ?_⟩
  omega

/-- A whole block cut off. -/
theorem carve_all (h : s.Listed (us ++ (b, n) :: vs)) :
    (Pmm.carve b n s).Listed (us ++ vs) := by
  have hbranch : ¬n < ((s.listDel (some b)).page b).property := by
    rw [listDel, setLinks_page, h.size_mem]
    exact lt_irrefl n
  have hremoved := h.remove
  rw [Pmm.carve]
  simp only [if_neg hbranch]
  exact hremoved

/-- Two entries become one: the block `r` leaves the list and `g` takes its pages. -/
theorem absorb {g r j k : ℕ}
    (hremove : (((s.listDel (some r)).setFree (s.nrFree - j)).setPage r fun p ↦
      { p with pageProperty := false }).Listed (us ++ (g, k) :: vs)) (hgr : g ≠ r)
    (hle : j + k ≤ s.nrFree) {f : Page → Page} (hf : f = fun q ↦ { q with property := k + j }) :
    (((s.setPage g f).setPage r fun q ↦ { q with pageProperty := false }).listDel (some r)).Listed
      (us ++ (g, k + j) :: vs) := by
  have hresized := hremove.resize (f := f) (m := k + j) (by rw [hf]) (by rw [hf])
  convert hresized using 1
  simp only [listDel, setPage, setLinks, setFree, mk.injEq, true_and,
    Function.update_of_ne hgr, Function.update_of_ne hgr.symm]
  refine ⟨Function.update_comm hgr _ _ _, ?_⟩
  omega

end Listed

end FreeArea

/-! ## Insertion -/

namespace Pmm

variable {s : FreeArea} {brk : Bool} {b n : ℕ} {us vs : List (ℕ × ℕ)}

theorem insertLoop_step {fuel p : ℕ} {le : Option ℕ} (hnext : s.listNext le = some p) (hp : ¬b < p)
    (hmore : s.listNext (some p) ≠ none) :
    (insertLoop brk b (fuel + 1) le).run s = (insertLoop brk b fuel (some p)).run s := by
  rw [insertLoop, get_bind_run, hnext]
  simp only [if_neg hp, if_neg hmore]

/-- The walk stops in front of the first block above `b`. -/
theorem insertLoop_before {fuel v : ℕ} {le : Option ℕ} {ws : List (Option ℕ)}
    (hchain : s.links.Chain le (nodes us ++ some v :: ws) none) (hu : ∀ u ∈ us, u.1 < b)
    (hv : b < v) (hfuel : us.length < fuel) :
    (insertLoop brk b fuel le).run s = .ok () (s.listAddBefore (some v) (some b)) := by
  induction us generalizing le fuel with
  | nil =>
    obtain ⟨fuel, rfl⟩ := Nat.exists_eq_succ_of_ne_zero (Nat.ne_of_gt hfuel)
    rw [Nat.succ_eq_add_one, insertLoop, get_bind_run, FreeArea.listNext, hchain.next_eq]
    simp only [nodes_nil, List.nil_append, List.headD_cons, if_pos hv, run_modify]
  | cons u us ih =>
    obtain ⟨fuel, rfl⟩ := Nat.exists_eq_succ_of_ne_zero (Nat.ne_of_gt (Nat.zero_lt_of_lt hfuel))
    have htail : s.links.Chain (some u.1) (nodes us ++ some v :: ws) none := hchain.2.2
    have hmore : s.listNext (some u.1) ≠ none := by
      rw [FreeArea.listNext, htail.next_eq]
      cases us with
      | nil => exact Option.some_ne_none v
      | cons w us => exact Option.some_ne_none w.1
    rw [Nat.succ_eq_add_one, insertLoop_step hchain.1 (hu u List.mem_cons_self).not_gt hmore]
    refine ih htail (fun w hw ↦ hu w (List.mem_cons_of_mem u hw)) ?_
    exact Nat.lt_of_succ_lt_succ hfuel

/-- The walk gets to the last block, which lies below `b`, and leaves the loop there. -/
theorem insertLoop_last {fuel u : ℕ} {le : Option ℕ}
    (hchain : s.links.Chain le (nodes us ++ [some u]) none) (hu : ∀ u ∈ us, u.1 < b) (hub : u < b)
    (hfuel : us.length < fuel) :
    (insertLoop true b fuel le).run s = .ok () (s.listAdd (some u) (some b)) := by
  induction us generalizing le fuel with
  | nil =>
    obtain ⟨fuel, rfl⟩ := Nat.exists_eq_succ_of_ne_zero (Nat.ne_of_gt hfuel)
    have hend : s.listNext (some u) = none := hchain.2.2.1
    rw [Nat.succ_eq_add_one, insertLoop, get_bind_run, FreeArea.listNext, hchain.next_eq]
    simp only [nodes_nil, List.nil_append, List.headD_cons, if_neg hub.not_gt, if_pos hend, if_true,
      modify_bind_run, run_pure]
  | cons w us ih =>
    obtain ⟨fuel, rfl⟩ := Nat.exists_eq_succ_of_ne_zero (Nat.ne_of_gt (Nat.zero_lt_of_lt hfuel))
    have htail : s.links.Chain (some w.1) (nodes us ++ [some u]) none := hchain.2.2
    have hmore : s.listNext (some w.1) ≠ none := by
      rw [FreeArea.listNext, htail.next_eq]
      cases us with
      | nil => exact Option.some_ne_none u
      | cons w us => exact Option.some_ne_none w.1
    rw [Nat.succ_eq_add_one, insertLoop_step hchain.1 (hu w List.mem_cons_self).not_gt hmore]
    refine ih htail (fun v hv ↦ hu v (List.mem_cons_of_mem w hv)) ?_
    exact Nat.lt_of_succ_lt_succ hfuel

/-- A new block is not put behind the last of several blocks by a loop that goes on there. -/
def Clear (brk : Bool) (b : ℕ) (s : FreeArea) : Prop :=
  brk = true ∨ ∀ last, s.listPrev none = some last → b < last

instance (brk : Bool) (b : ℕ) (s : FreeArea) : Decidable (Clear brk b s) :=
  inferInstanceAs (Decidable (_ ∨ _))

theorem insertBlock_run (hring : s.links.Ring none (nodes (us ++ vs))) (hu : ∀ u ∈ us, u.1 < b)
    (hv : ∀ v ∈ vs, b < v.1) (hlen : (us ++ vs).length ≤ s.npage) (hclear : Clear brk b s) :
    ∃ L : Links (Option ℕ), L.Ring none (nodes (us ++ (b, n) :: vs)) ∧
      (insertBlock brk b).run s = .ok () (s.setLinks L) := by
  have hnew : some b ∉ none :: (nodes us ++ nodes vs) := by
    rw [List.mem_cons, List.mem_append, some_mem_nodes, some_mem_nodes]
    rintro (heq | ⟨x, hx, heq⟩ | ⟨x, hx, heq⟩)
    · cases heq
    · exact (hu x hx).ne heq
    · exact (hv x hx).ne heq.symm
  rw [nodes_append] at hring
  rw [nodes_append, nodes_cons]
  have hfuel : us.length < s.npage + 1 := by
    rw [List.length_append] at hlen
    omega
  cases vs with
  | cons v vs =>
    refine ⟨_, hring.link_before hnew, ?_⟩
    have hne : ¬s.listEmpty := by
      rw [FreeArea.listEmpty, hring.next_head]
      cases us with
      | nil => exact Option.some_ne_none v.1
      | cons u us => exact Option.some_ne_none u.1
    rw [insertBlock, get_bind_run, if_neg hne,
      insertLoop_before hring.chain hu (hv v List.mem_cons_self) hfuel]
    rfl
  | nil =>
    refine ⟨_, hring.link_after hnew, ?_⟩
    rcases List.eq_nil_or_concat us with rfl | ⟨us, u, rfl⟩
    · have hempty : s.listEmpty := hring.next_head
      rw [insertBlock, get_bind_run, if_pos hempty, run_modify]
      rfl
    · rw [List.concat_eq_append, nodes_append] at *
      simp only [nodes_nil, nodes_cons, List.append_nil] at *
      have hub : u.1 < b := hu u (List.mem_append_right us (List.mem_singleton_self u))
      have hlast : s.listPrev none = some u.1 := by
        rw [FreeArea.listPrev, hring.prev_head, List.getLastD_concat]
      -- behind the last of several blocks the loop has to leave after the insertion
      have hbrk : brk = true := hclear.resolve_right fun hb ↦ hub.not_gt (hb u.1 hlast)
      have hne : ¬s.listEmpty := by
        rw [FreeArea.listEmpty, hring.next_head]
        cases us with
        | nil => exact Option.some_ne_none u.1
        | cons w us => exact Option.some_ne_none w.1
      rw [List.length_append] at hfuel
      rw [insertBlock, get_bind_run, if_neg hne, hbrk,
        insertLoop_last hring.chain (fun w hw ↦ hu w (List.mem_append_left _ hw)) hub
          (lt_of_le_of_lt (Nat.le_add_right _ _) hfuel), List.getLastD_concat]
      rfl

end Pmm

/-! ## Merging -/

namespace FreeArea

/-- The pages are the same ones, and the same ones are reserved. -/
structure Frame (s s' : FreeArea) : Prop where
  npage : s'.npage = s.npage
  reserved : ∀ p, (s'.page p).pageReserved = (s.page p).pageReserved

namespace Frame

variable {s s' s'' : FreeArea}

theorem refl (s : FreeArea) : Frame s s := ⟨rfl, fun _ ↦ rfl⟩

theorem trans (h : Frame s s') (h' : Frame s' s'') : Frame s s'' where
  npage := h'.npage.trans h.npage
  reserved p := (h'.reserved p).trans (h.reserved p)

theorem setPage (h : Frame s s') (b : ℕ) {f : Page → Page}
    (hf : ∀ q, (f q).pageReserved = q.pageReserved) : Frame s (s'.setPage b f) where
  npage := h.npage
  reserved p := by
    rw [setPage_page]
    rcases eq_or_ne p b with rfl | hp
    · rw [Function.update_self, hf, h.reserved]
    · rw [Function.update_of_ne hp, h.reserved]

theorem setLinks (h : Frame s s') (L : Links (Option ℕ)) : Frame s (s'.setLinks L) :=
  ⟨h.npage, h.reserved⟩

theorem setFree (h : Frame s s') (n : ℕ) : Frame s (s'.setFree n) := ⟨h.npage, h.reserved⟩

theorem markFree (s : FreeArea) (b n : ℕ) : Frame s (Pmm.markFree b n s) := by
  rw [Pmm.markFree]
  apply setFree
  exact setPage (refl s) b fun _ ↦ rfl

theorem merge (s : FreeArea) (g r k : ℕ) :
    Frame s (((s.setPage g fun q ↦ { q with property := k }).setPage r fun q ↦
      { q with pageProperty := false }).listDel (some r)) := by
  rw [listDel]
  apply setLinks
  refine setPage ?_ r fun _ ↦ rfl
  exact setPage (refl s) g fun _ ↦ rfl

theorem carve (s : FreeArea) (b n : ℕ) : Frame s (Pmm.carve b n s) := by
  have hdel : Frame s (s.listDel (some b)) := (refl s).setLinks _
  rw [Pmm.carve]
  refine setPage (setFree ?_ _) b fun _ ↦ rfl
  split_ifs
  · rw [listAdd]
    apply setLinks
    exact setPage hdel _ fun _ ↦ rfl
  · exact hdel

end Frame

end FreeArea

namespace Pmm

variable {s : FreeArea} {b n : ℕ} {us vs : List (ℕ × ℕ)}

/-- After the first merge the block touches nothing below it. -/
theorem mergePrev_run (h : s.Listed (us ++ (b, n) :: vs)) (hu : Gapped us) (hn : 0 < n)
    (hlow : ∀ u ∈ us, u.1 + u.2 ≤ b) :
    ∃ s' ws g k, (mergePrev b).run s = .ok g s' ∧ s'.Listed (ws ++ (g, k) :: vs) ∧ s.Frame s' ∧
      Gapped ws ∧ 0 < k ∧ (∀ w ∈ ws, w.1 + w.2 < g) ∧ g + k = b + n ∧
      cover ws ∪ span (g, k) = cover us ∪ span (b, n) := by
  have hring := h.ring
  rw [nodes_append, nodes_cons] at hring
  have hprev : s.listPrev (some b) = (nodes us).getLastD none := hring.prev_mem
  rcases List.eq_nil_or_concat us with rfl | ⟨ws, ⟨g, k⟩, rfl⟩
  · refine ⟨s, [], b, n, ?_, h, .refl s, hu, hn, fun _ hm ↦ absurd hm List.not_mem_nil, rfl, rfl⟩
    rw [mergePrev, get_bind_run, hprev]
    rfl
  · rw [List.concat_eq_append] at *
    rw [nodes_append, nodes_cons, nodes_nil, List.getLastD_concat] at hprev
    have hlisted : s.Listed (ws ++ (g, k) :: (b, n) :: vs) := by
      rwa [List.append_assoc] at h
    have hsize : (s.page g).property = k := hlisted.size_mem
    -- the block below grows by this one, or stays apart
    by_cases htouch : g + k = b
    · have hgb : g ≠ b := by
        rintro rfl
        exact h.ne_of_mem (g, k) (by simp) rfl
      have hle : n + k ≤ s.nrFree := by
        rw [h.nrFree, FreeArea.Listed.sum_insert, List.append_assoc, List.singleton_append,
          FreeArea.Listed.sum_insert]
        simp only
        omega
      have hremove := h.remove
      rw [List.append_assoc, List.singleton_append] at hremove
      refine ⟨_, ws, g, k + n, ?_, FreeArea.Listed.absorb hremove hgb hle rfl, ?_, hu.left,
        Nat.add_pos_right k hn, hu.low, by omega, ?_⟩
      · rw [mergePrev, get_bind_run, hprev]
        simp only [hsize, if_pos htouch, modify_bind_run, h.size_mem, run_pure]
        simp only [FreeArea.setPage, hsize]
      · exact .merge s g b (k + n)
      · rw [cover_append, cover_cons, cover_nil, Finset.union_empty, Finset.union_assoc, ← htouch,
          span_join]
    · refine ⟨s, ws ++ [(g, k)], b, n, ?_, h, .refl s, hu, hn, ?_, rfl, rfl⟩
      · rw [mergePrev, get_bind_run, hprev]
        simp only [hsize, if_neg htouch, run_pure]
      · intro w hw
        have hle := hlow w hw
        rcases List.mem_append.mp hw with hw' | hw'
        · have hlt := hu.low w hw'
          have hgk := hlow (g, k) (List.mem_append_right ws (List.mem_singleton_self _))
          have hpos := hu.pos (g, k) (List.mem_append_right ws (List.mem_singleton_self _))
          simp only at hlt hgk hpos
          omega
        · rw [List.mem_singleton] at hw'
          subst hw'
          simp only at hle ⊢
          omega

/-- After the second merge the block touches nothing above it either. -/
theorem mergeNext_run (h : s.Listed (us ++ (b, n) :: vs)) (hu : Gapped us) (hv : Gapped vs)
    (hn : 0 < n) (hlow : ∀ u ∈ us, u.1 + u.2 < b) (hhigh : ∀ v ∈ vs, b + n ≤ v.1) :
    ∃ s' ys, (mergeNext b).run s = .ok () s' ∧ s'.Listed ys ∧ s.Frame s' ∧ Gapped ys ∧
      cover ys = cover (us ++ (b, n) :: vs) := by
  have hring := h.ring
  rw [nodes_append, nodes_cons] at hring
  have hnext : s.listNext (some b) = (nodes vs).headD none := hring.next_mem
  cases vs with
  | nil =>
    refine ⟨s, _, ?_, h, .refl s, hu.insert hv hn hlow fun _ hm ↦ absurd hm List.not_mem_nil, rfl⟩
    rw [mergeNext, get_bind_run, hnext]
    rfl
  | cons v vs =>
    obtain ⟨p, k⟩ := v
    rw [nodes_cons, List.headD_cons] at hnext
    have hfirst : Gapped ([] ++ (p, k) :: vs) := hv
    have hgaps := hfirst.high
    have hsize : (s.page p).property = k :=
      h.size (p, k) (List.mem_append_right us (List.mem_cons_of_mem _ List.mem_cons_self))
    -- the block takes in the one above, or stays apart
    by_cases htouch : b + n = p
    · have hbp : b ≠ p := by omega
      have hlisted : s.Listed ((us ++ [(b, n)]) ++ (p, k) :: vs) := by
        rwa [List.append_assoc]
      have hle : k + n ≤ s.nrFree := by
        rw [h.nrFree, FreeArea.Listed.sum_insert, FreeArea.Listed.sum_insert]
        simp only
        omega
      have hremove := hlisted.remove
      rw [List.append_assoc, List.singleton_append] at hremove
      refine ⟨_, us ++ (b, n + k) :: vs, ?_, FreeArea.Listed.absorb hremove hbp hle rfl, ?_, ?_, ?_⟩
      · rw [mergeNext, get_bind_run, hnext]
        simp only [h.size_mem, if_pos htouch, modify_bind_run, hsize, run_modify]
        simp only [FreeArea.setPage, h.size_mem]
      · exact .merge s b p (n + k)
      · have hrest : Gapped ([(p, k)] ++ vs) := hv
        refine hu.insert hrest.right (Nat.add_pos_left hn k) hlow ?_
        intro v hmem
        have hlt := hgaps v hmem
        simp only at hlt ⊢
        omega
      · rw [cover_append, cover_append, cover_cons, cover_cons, cover_cons, ← Finset.union_assoc
          (span (b, n)), ← htouch, span_join]
    · refine ⟨s, _, ?_, h, .refl s, hu.insert hv hn hlow ?_, rfl⟩
      · rw [mergeNext, get_bind_run, hnext]
        simp only [h.size_mem, if_neg htouch, run_pure]
      · intro v hmem
        have hle := hhigh v hmem
        have hpk := hhigh (p, k) List.mem_cons_self
        rcases List.mem_cons.mp hmem with rfl | hmem
        · simp only at hpk ⊢
          omega
        · have hlt := hgaps v hmem
          simp only at hlt hpk ⊢
          omega

end Pmm

/-! ## The representation of the set of free pages -/

namespace FreeArea

/-- The free list is `xs`, the maximal runs of free pages among the `managed` ones. -/
structure Rep (s : FreeArea) (managed : Finset ℕ) (xs : List (ℕ × ℕ)) : Prop
    extends s.Listed xs where
  gapped : Gapped xs
  cover_subset : cover xs ⊆ managed
  lt_npage : ∀ p ∈ managed, p < s.npage
  reserved : ∀ p < s.npage, (s.page p).pageReserved = true ↔ p ∉ managed

namespace Rep

variable {s s' : FreeArea} {managed : Finset ℕ} {xs ys : List (ℕ × ℕ)}

theorem boot (npage : ℕ) : (FreeArea.boot npage).Rep ∅ [] where
  toListed := Listed.boot npage
  gapped := .nil
  cover_subset := subset_rfl
  lt_npage _ h := absurd h (Finset.notMem_empty _)
  reserved p _ := ⟨fun _ ↦ Finset.notMem_empty p, fun _ ↦ rfl⟩

theorem start_mem (h : s.Rep managed xs) {x : ℕ × ℕ} (hx : x ∈ xs) : x.1 ∈ managed :=
  h.cover_subset (span_subset_cover hx (start_mem_span (h.gapped.pos x hx)))

theorem length_le (h : s.Rep managed xs) : xs.length ≤ s.npage := by
  have hnodup : (nodes xs).Nodup := (List.nodup_cons.mp h.ring.nodup).2
  have hsub : nodes xs ⊆ (List.range s.npage).map some := by
    intro e he
    obtain ⟨x, hx, rfl⟩ := List.mem_map.mp he
    exact List.mem_map_of_mem (List.mem_range.mpr (h.lt_npage _ (h.start_mem hx)))
  have hle := (List.subperm_of_subset hnodup hsub).length_le
  rwa [length_nodes, List.length_map, List.length_range] at hle

/-- `nr_free` is the number of free pages. -/
theorem nrFree_eq_card (h : s.Rep managed xs) : s.nrFree = (cover xs).card := by
  rw [h.nrFree, h.gapped.card_cover]

/-- The list changes and the managed pages stay. -/
theorem update (h : s.Rep managed xs) (hlisted : s'.Listed ys) (hframe : s.Frame s')
    (hgapped : Gapped ys) (hsub : cover ys ⊆ managed) : s'.Rep managed ys where
  toListed := hlisted
  gapped := hgapped
  cover_subset := hsub
  lt_npage p hp := hframe.npage.symm ▸ h.lt_npage p hp
  reserved p hp := by
    rw [hframe.reserved]
    exact h.reserved p (hframe.npage ▸ hp)

end Rep

end FreeArea

/-! ## The three routines -/

namespace Pmm

open FreeArea

variable {s : FreeArea} {managed : Finset ℕ} {xs : List (ℕ × ℕ)} {brk : Bool} {b n : ℕ}

/-- The pages of a new region are not managed, nor are the pages next to it. -/
def Apart (managed : Finset ℕ) (b n : ℕ) : Prop := ∀ p ∈ managed, p + 1 < b ∨ b + n < p

instance (managed : Finset ℕ) (b n : ℕ) : Decidable (Apart managed b n) :=
  inferInstanceAs (Decidable (∀ p ∈ managed, _))

/-- An extent inside the managed pages lies apart from such a region as a whole. -/
theorem Apart.extent (h : Apart managed b n) {x : ℕ × ℕ} (hx : 0 < x.2)
    (hsub : span x ⊆ managed) : x.1 + x.2 < b ∨ b + n < x.1 := by
  have hstart := h x.1 (hsub (start_mem_span hx))
  have hlast := h (x.1 + x.2 - 1) (hsub (mem_span.mpr (by omega)))
  by_contra hcon
  have hb : b ∈ managed ∨ x.1 + 1 < b ∧ b < x.1 + x.2 := by omega
  rcases hb with hb | hb
  · have hself := h b hb
    omega
  · have hself := h b (hsub (mem_span.mpr (by omega)))
    omega

theorem initMemmap_run (h : s.Rep managed xs) (hn : 0 < n) (hb : b + n ≤ s.npage)
    (hapart : Apart managed b n) (hclear : Clear brk b s) :
    ∃ s' ys, (initMemmap brk b n).run s = .ok () s' ∧ s'.Rep (managed ∪ span (b, n)) ys ∧
      s'.npage = s.npage ∧ cover ys = cover xs ∪ span (b, n) := by
  -- the managed pages do not touch the new ones, so neither does any block
  have hextent : ∀ x ∈ xs, x.1 + x.2 < b ∨ b + n < x.1 := fun x hx ↦
    hapart.extent (h.gapped.pos x hx) ((span_subset_cover hx).trans h.cover_subset)
  have hne : ∀ x ∈ xs, x.1 ≠ b := fun x hx heq ↦ by
    have hx := hextent x hx
    omega
  obtain ⟨us, vs, rfl, hu, hv⟩ := h.gapped.exists_split hne
  have hlow : ∀ u ∈ us, u.1 + u.2 < b := fun u hmem ↦ by
    have hx := hextent u (List.mem_append_left vs hmem)
    have hlt := hu u hmem
    omega
  have hhigh : ∀ v ∈ vs, b + n < v.1 := fun v hmem ↦ by
    have hx := hextent v (List.mem_append_right us hmem)
    have hlt := hv v hmem
    omega
  have hnotin : ∀ i < n, b + i ∉ managed := fun i hi hmem ↦ by
    have hx := hapart _ hmem
    omega
  have hreserved : s.reservedAll b n := fun i hi ↦
    (h.reserved (b + i) (by omega)).mpr (hnotin i hi)
  have hcleared := h.toListed.setPages (b := b) (n := n) (f := fun _ ↦ ⟨0, false, false, 0⟩)
    (fun _ ↦ rfl) fun x hx ↦ by
      have hx := hextent x hx
      omega
  obtain ⟨L, hring, hrun⟩ := insertBlock_run (s := markFree b n (s.setPages b n fun _ ↦
    ⟨0, false, false, 0⟩)) (n := n) hcleared.ring hu hv h.length_le hclear
  have hlisted := hcleared.insert hne hring
  refine ⟨_, us ++ (b, n) :: vs, ?_, ⟨hlisted, h.gapped.left.insert h.gapped.right hn hlow hhigh,
    ?_, ?_, ?_⟩, rfl, ?_⟩
  · rw [initMemmap, assert_bind_run hn, get_bind_run, assert_bind_run hreserved, modify_bind_run,
      modify_bind_run, hrun]
  · have hsub := h.cover_subset
    rw [cover_append] at hsub
    rw [cover_append, cover_cons, Finset.union_left_comm, Finset.union_comm]
    exact Finset.union_subset_union_left hsub
  · intro p hp
    rcases Finset.mem_union.mp hp with hp | hp
    · exact h.lt_npage p hp
    · exact lt_of_lt_of_le (mem_span.mp hp).2 hb
  · intro p hp
    have hframe := (Frame.markFree (s.setPages b n fun _ ↦ ⟨0, false, false, 0⟩) b n).setLinks L
    rw [hframe.reserved, Finset.mem_union, mem_span, not_or]
    by_cases hin : b ≤ p ∧ p < b + n
    · rw [setPages_page_of_mem _ hin]
      exact ⟨fun hh ↦ absurd hh Bool.false_ne_true, fun hh ↦ absurd hin hh.2⟩
    · rw [setPages_page_of_notMem _ hin, h.reserved p hp]
      exact ⟨fun hh ↦ ⟨hh, hin⟩, fun hh ↦ hh.1⟩
  · rw [cover_append, cover_cons, cover_append, Finset.union_left_comm, Finset.union_comm]

theorem freePages_run (h : s.Rep managed xs) (hn : 0 < n) (hsub : span (b, n) ⊆ managed)
    (hdisj : Disjoint (span (b, n)) (cover xs)) (hclear : Clear brk b s) :
    ∃ s' ys, (freePages brk b n).run s = .ok () s' ∧ s'.Rep managed ys ∧
      s'.npage = s.npage ∧ cover ys = cover xs ∪ span (b, n) := by
  -- a run of pages outside the free ones lies between two neighbouring blocks
  have hextent : ∀ x ∈ xs, x.1 + x.2 ≤ b ∨ b + n ≤ x.1 := fun x hx ↦ by
    have hpos := h.gapped.pos x hx
    have hb := Finset.disjoint_left.mp hdisj (start_mem_span (x := (b, n)) hn)
    have hx' := Finset.disjoint_right.mp hdisj (span_subset_cover hx (start_mem_span hpos))
    rw [mem_span] at hx'
    have hbx : b ∉ span x := fun hmem ↦ hb (span_subset_cover hx hmem)
    rw [mem_span] at hbx
    simp only at hx'
    omega
  have hne : ∀ x ∈ xs, x.1 ≠ b := fun x hx heq ↦ by
    have hpos := h.gapped.pos x hx
    have hx := hextent x hx
    omega
  obtain ⟨us, vs, rfl, hu, hv⟩ := h.gapped.exists_split hne
  have hlow : ∀ u ∈ us, u.1 + u.2 ≤ b := fun u hmem ↦ by
    have hx := hextent u (List.mem_append_left vs hmem)
    have hlt := hu u hmem
    omega
  have hhigh : ∀ v ∈ vs, b + n ≤ v.1 := fun v hmem ↦ by
    have hpos := h.gapped.pos v (List.mem_append_right us hmem)
    have hx := hextent v (List.mem_append_right us hmem)
    have hlt := hv v hmem
    omega
  have hplain : s.plainAll b n := fun i hi ↦ by
    have hmem : b + i ∈ span (b, n) := mem_span.mpr ⟨Nat.le_add_right b i, by simp [hi]⟩
    have hfree := Finset.disjoint_left.mp hdisj hmem
    refine ⟨?_, ?_⟩
    · have hres := h.reserved (b + i) (h.lt_npage _ (hsub hmem))
      rw [← Bool.not_eq_true, hres, not_not]
      exact hsub hmem
    · rw [← Bool.not_eq_true, h.head]
      rintro ⟨x, hx, heq⟩
      exact hfree (span_subset_cover hx (heq ▸ start_mem_span (h.gapped.pos x hx)))
  have hcleared := h.toListed.setPages (b := b) (n := n) (f := fun p ↦
    { p with pageReserved := false, pageProperty := false, ref := 0 }) (fun _ ↦ rfl) fun x hx ↦ by
      have hpos := h.gapped.pos x hx
      have hx := hextent x hx
      omega
  obtain ⟨L, hring, hrun⟩ := insertBlock_run (s := markFree b n (s.setPages b n fun p ↦
    { p with pageReserved := false, pageProperty := false, ref := 0 })) (n := n) hcleared.ring hu hv
    h.length_le hclear
  have hlisted := hcleared.insert hne hring
  have hclean : s.Frame (s.setPages b n fun p ↦
      { p with pageReserved := false, pageProperty := false, ref := 0 }) := by
    refine ⟨rfl, fun p ↦ ?_⟩
    by_cases hin : b ≤ p ∧ p < b + n
    · have hold := (hplain (p - b) (by omega)).1
      rw [Nat.add_sub_cancel' hin.1] at hold
      rw [setPages_page_of_mem _ hin, hold]
    · rw [setPages_page_of_notMem _ hin]
  have hframe := hclean.trans ((Frame.markFree _ b n).setLinks L)
  -- the block may join the one in front and then the one behind
  obtain ⟨s₁, ws, g, k, hrun₁, hlisted₁, hframe₁, hws, hk, hlow₁, hend, hcover₁⟩ :=
    mergePrev_run hlisted h.gapped.left hn hlow
  obtain ⟨s₂, ys, hrun₂, hlisted₂, hframe₂, hys, hcover₂⟩ :=
    mergeNext_run hlisted₁ hws h.gapped.right hk hlow₁ fun v hmem ↦ hend.symm ▸ hhigh v hmem
  have hframe' := (hframe.trans hframe₁).trans hframe₂
  have hcover : cover ys = cover (us ++ vs) ∪ span (b, n) := by
    rw [hcover₂, cover_append, cover_cons, ← Finset.union_assoc, hcover₁, cover_append,
      Finset.union_right_comm]
  refine ⟨s₂, ys, ?_, h.update hlisted₂ hframe' hys ?_, hframe'.npage, hcover⟩
  · rw [freePages, assert_bind_run hn, get_bind_run, assert_bind_run hplain, modify_bind_run,
      modify_bind_run, bind_of_ok hrun, bind_of_ok hrun₁, hrun₂]
  · rw [hcover]
    exact Finset.union_subset h.cover_subset hsub

/-! ## The searches -/

/-- What a search for `n` pages finds among the blocks `xs`: a block that is large enough, or that
there is none. -/
def Found (xs : List (ℕ × ℕ)) (n : ℕ) : Option ℕ → Prop
  | none => ∀ x ∈ xs, x.2 < n
  | some p => ∃ m, n ≤ m ∧ (p, m) ∈ xs

/-- A search finds a block whenever there is one, and changes nothing. -/
def Searches (select : ℕ → Pmm (Option ℕ)) : Prop :=
  ∀ ⦃s managed xs⦄, FreeArea.Rep s managed xs → ∀ n, ∃ ans, (select n).run s = .ok ans s ∧
    Found xs n ans

/-- First fit takes the first block that is large enough. -/
theorem firstFit_run {fuel : ℕ} {le : Option ℕ} (hchain : s.links.Chain le (nodes xs) none)
    (hsize : ∀ x ∈ xs, (s.page x.1).property = x.2) (hfuel : xs.length < fuel) :
    (firstFit n fuel le).run s = .ok ((xs.find? fun x ↦ n ≤ x.2).map Prod.fst) s := by
  induction xs generalizing fuel le with
  | nil =>
    obtain ⟨fuel, rfl⟩ := Nat.exists_eq_succ_of_ne_zero (Nat.ne_of_gt hfuel)
    rw [Nat.succ_eq_add_one, firstFit, get_bind_run, FreeArea.listNext, hchain.next_eq]
    rfl
  | cons x xs ih =>
    obtain ⟨fuel, rfl⟩ := Nat.exists_eq_succ_of_ne_zero (Nat.ne_of_gt (Nat.zero_lt_of_lt hfuel))
    rw [Nat.succ_eq_add_one, firstFit, get_bind_run, FreeArea.listNext, hchain.next_eq]
    simp only [nodes_cons, List.headD_cons, hsize x List.mem_cons_self]
    by_cases hx : n ≤ x.2
    · rw [if_pos hx, List.find?_cons_of_pos (by simpa using hx)]
      rfl
    · rw [if_neg hx, List.find?_cons_of_neg (by simpa using hx)]
      exact ih hchain.2.2 (fun y hy ↦ hsize y (List.mem_cons_of_mem x hy))
        (Nat.lt_of_succ_lt_succ hfuel)

theorem searches_default : Searches defaultSelect := by
  intro s managed xs h n
  refine ⟨(xs.find? fun x ↦ n ≤ x.2).map Prod.fst, ?_, ?_⟩
  · rw [defaultSelect, get_bind_run]
    exact firstFit_run h.ring.chain h.size (Nat.lt_succ_of_le h.length_le)
  · cases hfind : xs.find? fun x ↦ n ≤ x.2 with
    | none =>
      intro x hx
      simpa using List.find?_eq_none.mp hfind x hx
    | some x =>
      exact ⟨x.2, by simpa using List.find?_some hfind, List.mem_of_find?_eq_some hfind⟩

/-- Best fit keeps the block it has, or takes a smallest one of those that beat it. -/
theorem bestFit_run {fuel minSize : ℕ} {le page : Option ℕ}
    (hchain : s.links.Chain le (nodes xs) none)
    (hsize : ∀ x ∈ xs, (s.page x.1).property = x.2) (hfuel : xs.length < fuel) :
    ∃ ans, (bestFit n fuel le page minSize).run s = .ok ans s ∧
      ((ans = page ∧ ∀ x ∈ xs, n ≤ x.2 → minSize ≤ x.2) ∨
        ∃ x ∈ xs, ans = some x.1 ∧ n ≤ x.2 ∧ x.2 < minSize ∧ ∀ y ∈ xs, n ≤ y.2 → x.2 ≤ y.2) := by
  induction xs generalizing fuel le page minSize with
  | nil =>
    obtain ⟨fuel, rfl⟩ := Nat.exists_eq_succ_of_ne_zero (Nat.ne_of_gt hfuel)
    refine ⟨page, ?_, .inl ⟨rfl, fun x hx ↦ absurd hx List.not_mem_nil⟩⟩
    rw [Nat.succ_eq_add_one, bestFit, get_bind_run, FreeArea.listNext, hchain.next_eq]
    rfl
  | cons x xs ih =>
    obtain ⟨fuel, rfl⟩ := Nat.exists_eq_succ_of_ne_zero (Nat.ne_of_gt (Nat.zero_lt_of_lt hfuel))
    have hsize' : ∀ y ∈ xs, (s.page y.1).property = y.2 := fun y hy ↦
      hsize y (List.mem_cons_of_mem x hy)
    rw [Nat.succ_eq_add_one, bestFit, get_bind_run, FreeArea.listNext, hchain.next_eq]
    simp only [nodes_cons, List.headD_cons, hsize x List.mem_cons_self]
    -- the block is better than what is held, or it is skipped
    by_cases hx : n ≤ x.2 ∧ x.2 < minSize
    · rw [if_pos hx]
      obtain ⟨ans, hrun, hans⟩ := @ih fuel x.2 _ (some x.1) hchain.2.2 hsize'
        (Nat.lt_of_succ_lt_succ hfuel)
      refine ⟨ans, hrun, .inr ?_⟩
      rcases hans with ⟨rfl, hmin⟩ | ⟨y, hy, rfl, hny, hyx, hmin⟩
      · refine ⟨x, List.mem_cons_self, rfl, hx.1, hx.2, ?_⟩
        intro y hy hny
        rcases List.mem_cons.mp hy with rfl | hy
        · exact le_rfl
        · exact hmin y hy hny
      · refine ⟨y, List.mem_cons_of_mem x hy, rfl, hny, hyx.trans hx.2, ?_⟩
        intro z hz hnz
        rcases List.mem_cons.mp hz with rfl | hz
        · exact hyx.le
        · exact hmin z hz hnz
    · rw [if_neg hx]
      have hskip : n ≤ x.2 → minSize ≤ x.2 := fun hn ↦ not_lt.mp fun hlt ↦ hx ⟨hn, hlt⟩
      obtain ⟨ans, hrun, hans⟩ := @ih fuel minSize _ page hchain.2.2 hsize'
        (Nat.lt_of_succ_lt_succ hfuel)
      refine ⟨ans, hrun, hans.imp ?_ ?_⟩
      · rintro ⟨rfl, hmin⟩
        refine ⟨rfl, ?_⟩
        intro y hy
        rcases List.mem_cons.mp hy with rfl | hy
        · exact hskip
        · exact hmin y hy
      · rintro ⟨y, hy, rfl, hny, hym, hmin⟩
        refine ⟨y, List.mem_cons_of_mem x hy, rfl, hny, hym, ?_⟩
        intro z hz hnz
        rcases List.mem_cons.mp hz with rfl | hz
        · exact hym.le.trans (hskip hnz)
        · exact hmin z hz hnz

/-- Best fit takes a smallest block that is large enough. -/
theorem bestFitSelect_run (h : s.Rep managed xs) (n : ℕ) :
    ∃ ans, (bestFitSelect n).run s = .ok ans s ∧
      ((ans = none ∧ ∀ x ∈ xs, x.2 < n) ∨
        ∃ x ∈ xs, ans = some x.1 ∧ n ≤ x.2 ∧ ∀ y ∈ xs, n ≤ y.2 → x.2 ≤ y.2) := by
  obtain ⟨ans, hrun, hans⟩ := @bestFit_run _ _ n _ (s.nrFree + 1) _ none h.ring.chain h.size
    (Nat.lt_succ_of_le h.length_le)
  refine ⟨ans, ?_, hans.imp ?_ ?_⟩
  · rw [bestFitSelect, get_bind_run, hrun]
  · rintro ⟨rfl, hmin⟩
    refine ⟨rfl, fun x hx ↦ not_le.mp fun hle ↦ ?_⟩
    have hlarge := hmin x hx hle
    have hsmall := h.le_nrFree_of_mem hx
    omega
  · rintro ⟨x, hx, rfl, hnx, -, hmin⟩
    exact ⟨x, hx, rfl, hnx, hmin⟩

theorem searches_bestFit : Searches bestFitSelect := by
  intro s managed xs h n
  obtain ⟨ans, hrun, ⟨rfl, hnone⟩ | ⟨x, hx, rfl, hnx, -⟩⟩ := bestFitSelect_run h n
  · exact ⟨none, hrun, hnone⟩
  · exact ⟨some x.1, hrun, x.2, hnx, hx⟩

/-! ## Allocation -/

/-- `n` pages are taken out of the free ones, or no `n` of them stand in a row. -/
theorem allocPages_run {select : ℕ → Pmm (Option ℕ)} (hselect : Searches select)
    (h : s.Rep managed xs) (hn : 0 < n) :
    (∃ a s' ys, (allocPages select n).run s = .ok (some a) s' ∧ s'.Rep managed ys ∧
      s'.npage = s.npage ∧ span (a, n) ⊆ cover xs ∧ cover ys = cover xs \ span (a, n)) ∨
    (allocPages select n).run s = .ok none s ∧ ∀ a, ¬span (a, n) ⊆ cover xs := by
  have hnone : (∀ x ∈ xs, x.2 < n) → ∀ a, ¬span (a, n) ⊆ cover xs := by
    intro hsmall a hsub
    obtain ⟨x, hx, hsub⟩ := h.gapped.exists_span hn hsub
    have hle := Finset.card_le_card hsub
    rw [card_span, card_span] at hle
    exact (hsmall x hx).not_ge hle
  rw [allocPages, assert_bind_run hn, get_bind_run]
  by_cases hfree : s.nrFree < n
  · refine .inr ⟨by rw [if_pos hfree, run_pure], hnone fun x hx ↦ ?_⟩
    exact lt_of_le_of_lt (h.le_nrFree_of_mem hx) hfree
  rw [if_neg hfree]
  obtain ⟨ans, hrun, hans⟩ := hselect h n
  rw [bind_of_ok hrun]
  cases ans with
  | none => exact .inr ⟨rfl, hnone hans⟩
  | some a =>
    obtain ⟨m, hnm, hmem⟩ := hans
    have hsub : span (a, n) ⊆ span (a, m) := by
      intro p
      rw [mem_span, mem_span]
      simp only
      omega
    have hsub' := hsub.trans (span_subset_cover hmem)
    have hframe := Frame.carve s a n
    obtain ⟨us, vs, rfl⟩ := List.append_of_mem hmem
    -- the rest of the block stays on the list, if there is one
    rcases hnm.lt_or_eq with hlt | rfl
    · have hcover := h.gapped.cover_trim hlt
      have hlisted := h.carve hn hlt fun x hx heq ↦ by
        have hx' := h.gapped.notMem_span (p := x.1) (span_subset_cover hx
          (start_mem_span (h.gapped.remove.pos x hx)))
        rw [mem_span] at hx'
        simp only at hx'
        omega
      refine .inl ⟨a, _, us ++ (a + n, m - n) :: vs, rfl, h.update hlisted hframe
        (h.gapped.trim hlt) ?_, hframe.npage, hsub', hcover⟩
      rw [hcover]
      exact Finset.sdiff_subset.trans h.cover_subset
    · have hcover := h.gapped.cover_remove
      refine .inl ⟨a, _, us ++ vs, rfl, h.update h.carve_all hframe h.gapped.remove ?_,
        hframe.npage, hsub', hcover⟩
      rw [hcover]
      exact Finset.sdiff_subset.trans h.cover_subset

end Pmm

end Ucore
