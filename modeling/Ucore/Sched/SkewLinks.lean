import Ucore.Lib.SkewRemove

/-!
# The skew heap with its links

`libs/skew_heap.h`: a node has pointers to its parent and to its children, and the operations
rewrite them in place. They compute the operations of the heap as a tree (`skewHeapMerge_run`,
`skewHeapRemove_run`), and the links agree with it in both directions (`run_correct`).

## Links and trees

`Branch m t` says that the links `m` below the root of the tree `t` are those of `t`, from a node to
its children and back. The parent of the root is left open, as it is written by the caller. A merge
rewrites links of the nodes of its two trees only, and all other nodes have the links they had
(`Same`), so a subtree that is put in the place of another leaves the rest of the tree alone. A
removal merges the children of the node and puts the result in its place.

## The order

The comparison is a function on nodes, and all that is asked of it is that it is a total preorder of
the nodes at hand. Their ranks in it are a key, and `Inv` says that the tree is ordered by that key.
The rank of a node changes as nodes come and go, but not the order of two of them; and when the key
of the node on top has changed, that node is the only one that is out of order, and it can be
removed.
-/

namespace Ucore.SkewLinks

open SkewHeap

variable {α : Type} [DecidableEq α]

/-! ## The operations -/

/-- The links of all nodes. -/
structure Links (α : Type) where
  parent : α → Option α
  left : α → Option α
  right : α → Option α

namespace Links

variable (m : Links α) (a : α) (q : Option α)

def setParent : Links α := { m with parent := Function.update m.parent a q }

def setLeft : Links α := { m with left := Function.update m.left a q }

def setRight : Links α := { m with right := Function.update m.right a q }

/-- `if (l) l->parent = p`. -/
def adopt (l p : Option α) : Links α :=
  match l with
  | none => m
  | some x => m.setParent x p

end Links

def skewHeapInit (m : Links α) (a : α) : Links α :=
  ((m.setParent a none).setRight a none).setLeft a none

/-- The end of either branch of `skew_heap_merge`: `l` becomes the left child of `a`, and the old
left child `r` the right one. -/
def skewHeapLink (m : Links α) (a : α) (l r : Option α) : Links α :=
  ((m.setLeft a l).setRight a r).adopt l (some a)

/-- `skew_heap_merge`; there is no answer when the recursion is deeper than `fuel`. -/
def skewHeapMerge (comp : α → α → ℤ) :
    ℕ → Links α → Option α → Option α → Option (Option α × Links α)
  | 0, _, _, _ => none
  | _ + 1, m, none, b => some (b, m)
  | _ + 1, m, some a, none => some (some a, m)
  | fuel + 1, m, some a, some b =>
    if comp a b = -1 then
      (skewHeapMerge comp fuel m (m.right a) (some b)).map fun x ↦
        (some a, skewHeapLink x.2 a x.1 (m.left a))
    else
      (skewHeapMerge comp fuel m (some a) (m.right b)).map fun x ↦
        (some b, skewHeapLink x.2 b x.1 (m.left b))

def skewHeapInsert (comp : α → α → ℤ) (fuel : ℕ) (m : Links α) (a : Option α) (b : α) :
    Option (Option α × Links α) :=
  skewHeapMerge comp fuel (skewHeapInit m b) a (some b)

/-- The end of `skew_heap_remove`: `rep` takes the place of `b` below `p`. -/
def skewHeapSplice (m : Links α) (p b : α) (rep : Option α) : Links α :=
  if m.left p = some b then m.setLeft p rep else m.setRight p rep

def skewHeapRemove (comp : α → α → ℤ) (fuel : ℕ) (m : Links α) (a : Option α) (b : α) :
    Option (Option α × Links α) :=
  (skewHeapMerge comp fuel m (m.left b) (m.right b)).map fun x ↦
    match m.parent b with
    | some p => (a, skewHeapSplice (x.2.adopt x.1 (some p)) p b x.1)
    | none => (x.1, x.2.adopt x.1 none)

/-- The comparison that `skew_heap_merge` makes. -/
def ltOf (comp : α → α → ℤ) (a b : α) : Bool := comp a b = -1

/-! ## Trees of links -/

/-- The links below the root of a tree are those of the tree. -/
def Branch (m : Links α) : SkewHeap α → Prop
  | nil => True
  | node a l r => (m.left a = l.root ∧ m.right a = r.root) ∧
      (∀ x, l.root = some x ∨ r.root = some x → m.parent x = some a) ∧ Branch m l ∧ Branch m r

/-- A node has the same links. -/
structure Same (m m' : Links α) (x : α) : Prop where
  left : m'.left x = m.left x
  right : m'.right x = m.right x
  parent : m'.parent x = m.parent x

section Links

variable {m m' m₁ : Links α} {a b x : α} {l r s t u : SkewHeap α} {q : Option α}

omit [DecidableEq α] in
theorem Same.rfl : Same m m x := ⟨Eq.refl _, Eq.refl _, Eq.refl _⟩

omit [DecidableEq α] in
theorem Same.trans (h : Same m m₁ x) (h' : Same m₁ m' x) : Same m m' x :=
  ⟨h'.left.trans h.left, h'.right.trans h.right, h'.parent.trans h.parent⟩

omit [DecidableEq α] in
theorem mem_node : x ∈ (node a l r).toList ↔ x = a ∨ x ∈ l.toList ∨ x ∈ r.toList := by
  rw [toList_node, List.mem_cons, List.mem_append]

omit [DecidableEq α] in
theorem nodup_node : (node a l r).toList.Nodup ↔
    (a ∉ l.toList ∧ a ∉ r.toList) ∧ l.toList.Nodup ∧ r.toList.Nodup ∧
      ∀ x ∈ l.toList, x ∉ r.toList := by
  rw [toList_node, List.nodup_cons, List.mem_append, not_or, List.nodup_append']
  refine and_congr_right fun _ ↦ and_congr_right fun _ ↦ and_congr_right fun _ ↦ ?_
  exact ⟨fun h x hl hr ↦ h hl hr, fun h x hl hr ↦ h x hl hr⟩

omit [DecidableEq α] in
/-- A tree of links only depends on the links of its nodes; the parent of the root is not one of
them. -/
theorem Branch.congr (h : Branch m t) (hnodup : t.toList.Nodup)
    (hlinks : ∀ x ∈ t.toList, m'.left x = m.left x ∧ m'.right x = m.right x)
    (hparent : ∀ x ∈ t.toList, t.root ≠ some x → m'.parent x = m.parent x) : Branch m' t := by
  induction t with
  | nil => trivial
  | node a l r ihl ihr =>
    obtain ⟨⟨hal, har⟩, hl, hr, -⟩ := nodup_node.mp hnodup
    obtain ⟨hchildren, hup, hbl, hbr⟩ := h
    have hbelow : ∀ x, x ∈ l.toList ∨ x ∈ r.toList → m'.parent x = m.parent x := by
      intro x hx
      apply hparent x (mem_node.mpr (.inr hx))
      rw [root_node]
      rintro heq
      cases heq
      exact hx.elim hal har
    refine ⟨?_, fun x hx ↦ ?_, ?_, ?_⟩
    · rw [(hlinks a (mem_node.mpr (.inl rfl))).1, (hlinks a (mem_node.mpr (.inl rfl))).2]
      exact hchildren
    · rw [hbelow x (hx.imp mem_of_root mem_of_root)]
      exact hup x hx
    · exact ihl hbl hl (fun x hx ↦ hlinks x (mem_node.mpr (.inr (.inl hx))))
        fun x hx _ ↦ hbelow x (.inl hx)
    · exact ihr hbr hr (fun x hx ↦ hlinks x (mem_node.mpr (.inr (.inr hx))))
        fun x hx _ ↦ hbelow x (.inr hx)

omit [DecidableEq α] in
theorem Branch.of_same (h : Branch m t) (hnodup : t.toList.Nodup)
    (hsame : ∀ x ∈ t.toList, Same m m' x) : Branch m' t :=
  h.congr hnodup (fun x hx ↦ ⟨(hsame x hx).left, (hsame x hx).right⟩) fun x hx _ ↦
  (hsame x hx).parent

theorem adopt_left (l p : Option α) : (m.adopt l p).left = m.left := by
  cases l with
  | none => rfl
  | some x => rfl

theorem adopt_right (l p : Option α) : (m.adopt l p).right = m.right := by
  cases l with
  | none => rfl
  | some x => rfl

theorem adopt_parent_of_ne {l : Option α} (p : Option α) (h : l ≠ some x) :
    (m.adopt l p).parent x = m.parent x := by
  cases l with
  | none => rfl
  | some y =>
    have hne : x ≠ y := fun heq ↦ h (congrArg some heq.symm)
    exact Function.update_of_ne hne p m.parent

theorem adopt_parent {l : Option α} (p : Option α) (h : l = some x) :
    (m.adopt l p).parent x = p := by
  rw [h]
  exact Function.update_self x p m.parent

/-- What `skewHeapLink` writes. -/
theorem link_left (l r : Option α) : (skewHeapLink m a l r).left = Function.update m.left a l := by
  rw [skewHeapLink, adopt_left]
  rfl

theorem link_right (l r : Option α) :
    (skewHeapLink m a l r).right = Function.update m.right a r := by
  rw [skewHeapLink, adopt_right]
  rfl

theorem link_parent {l : Option α} (r : Option α) (h : l = some x) :
    (skewHeapLink m a l r).parent x = some a := adopt_parent _ h

theorem link_parent_of_ne {l : Option α} (r : Option α) (h : l ≠ some x) :
    (skewHeapLink m a l r).parent x = m.parent x := by
  rw [skewHeapLink, adopt_parent_of_ne _ h]
  rfl

/-- A merged subtree `s` and the old left subtree `l` below the node `a`. Merging the subtree has
changed no links outside of it. -/
theorem Branch.link (hs : Branch m₁ s) (hl : Branch m l) (hnodup : (node a s l).toList.Nodup)
    (hleft : m.left a = l.root) (hup : ∀ x, l.root = some x → m.parent x = some a)
    (hframe : ∀ x, x ∉ s.toList → Same m m₁ x) :
    Branch (skewHeapLink m₁ a s.root (m.left a)) (node a s l) ∧
      (∀ x, x ∉ (node a s l).toList → Same m (skewHeapLink m₁ a s.root (m.left a)) x) ∧
      (skewHeapLink m₁ a s.root (m.left a)).parent a = m.parent a := by
  obtain ⟨⟨has, hal⟩, hs', hl', hdisj⟩ := nodup_node.mp hnodup
  have hroot : ∀ x, x ∉ s.toList → s.root ≠ some x := fun x hx heq ↦ hx (mem_of_root heq)
  have hother : ∀ x, x ≠ a → x ∉ s.toList → Same m (skewHeapLink m₁ a s.root (m.left a)) x := by
    intro x hne hx
    refine (hframe x hx).trans ⟨?_, ?_, link_parent_of_ne _ (hroot x hx)⟩
    · rw [link_left, Function.update_of_ne hne]
    · rw [link_right, Function.update_of_ne hne]
  refine ⟨⟨⟨?_, ?_⟩, ?_, ?_, ?_⟩, ?_, ?_⟩
  · rw [link_left, Function.update_self]
  · rw [link_right, Function.update_self, hleft]
  · rintro x (hx | hx)
    · exact link_parent _ hx
    · have hxl := mem_of_root hx
      rw [(hother x (fun heq ↦ hal (heq ▸ hxl)) fun hxs ↦ hdisj x hxs hxl).parent]
      exact hup x hx
  · refine hs.congr hs' (fun x hx ↦ ?_) fun x _ hne ↦ link_parent_of_ne _ hne
    have hne : x ≠ a := fun heq ↦ has (heq ▸ hx)
    rw [link_left, link_right, Function.update_of_ne hne, Function.update_of_ne hne]
    exact ⟨rfl, rfl⟩
  · exact hl.of_same hl' fun x hx ↦
      hother x (fun heq ↦ hal (heq ▸ hx)) fun hxs ↦ hdisj x hxs hx
  · intro x hx
    rw [mem_node, not_or, not_or] at hx
    exact hother x hx.1 hx.2.1
  · rw [link_parent_of_ne _ (hroot a has)]
    exact (hframe a has).parent

end Links

/-! ## Merging -/

section Merge

variable {comp : α → α → ℤ} {lt : α → α → Bool} {m : Links α} {a b x : α}
    {l r l' r' t u : SkewHeap α}
  {fuel : ℕ}

omit [DecidableEq α] in
theorem merge_nil (lt : α → α → Bool) (t : SkewHeap α) : SkewHeap.merge lt t nil = t := by
  cases t with
  | nil => rfl
  | node a l r => rfl

omit [DecidableEq α] in
theorem merge_node_of_lt (h : lt a b = true) : SkewHeap.merge lt (node a l r) (node b l' r') =
    node a (SkewHeap.merge lt r (node b l' r')) l := by
  rw [SkewHeap.merge, mergeNode, if_pos h]

omit [DecidableEq α] in
theorem merge_node_of_not_lt (h : ¬lt a b = true) : SkewHeap.merge lt (node a l r) (node b l' r') =
    node b (SkewHeap.merge lt (node a l r) r') l' := by
  rw [SkewHeap.merge, mergeNode, if_neg h]

/-- `skew_heap_merge` computes the merge of the trees: with enough fuel it returns, it writes to no
node outside of them, and the parent of the node on top stays what it was. -/
theorem skewHeapMerge_run (ht : Branch m t) (hu : Branch m u)
    (hnodup : (t.toList ++ u.toList).Nodup) (hfuel : t.toList.length + u.toList.length < fuel) :
    ∃ m', skewHeapMerge comp fuel m t.root u.root =
        some ((SkewHeap.merge (ltOf comp) t u).root, m') ∧
      Branch m' (SkewHeap.merge (ltOf comp) t u) ∧
      (∀ x, x ∉ (SkewHeap.merge (ltOf comp) t u).toList → Same m m' x) ∧
      ∀ x, (SkewHeap.merge (ltOf comp) t u).root = some x → m'.parent x = m.parent x := by
  induction fuel generalizing t u with
  | zero => omega
  | succ fuel ih =>
    cases t with
    | nil => exact ⟨m, rfl, hu, fun _ _ ↦ .rfl, fun _ _ ↦ rfl⟩
    | node a l r =>
      cases u with
      | nil =>
        rw [merge_nil]
        exact ⟨m, rfl, ht, fun _ _ ↦ .rfl, fun _ _ ↦ rfl⟩
      | node b l' r' =>
        rw [toList_node, toList_node, List.length_cons, List.length_cons, List.length_append,
          List.length_append] at hfuel
        have hperm := toList_merge (ltOf comp) (node a l r) (node b l' r')
        have hmerged := hperm.nodup_iff.mpr hnodup
        obtain ⟨⟨hleft, hright⟩, hup, hl, hr⟩ := id ht
        obtain ⟨⟨hleft', hright'⟩, hup', hl', hr'⟩ := id hu
        rw [root_node, root_node, skewHeapMerge]
        -- the smaller root stays on top, and its right child is merged with the other tree
        by_cases hlt : ltOf comp a b = true
        · rw [if_pos (of_decide_eq_true hlt)]
          rw [merge_node_of_lt hlt] at hmerged ⊢
          have hsub : (r.toList ++ (node b l' r').toList).Nodup := by
            rw [← (toList_merge (ltOf comp) r (node b l' r')).nodup_iff]
            exact (nodup_node.mp hmerged).2.1
          obtain ⟨m₁, hrun, hs, hframe, -⟩ := ih hr hu hsub (by
            rw [toList_node, List.length_cons, List.length_append]
            omega)
          rw [root_node, ← hright] at hrun
          obtain ⟨hbranch, hsame, hparent⟩ := hs.link hl hmerged hleft
            (fun x hx ↦ hup x (.inl hx)) hframe
          refine ⟨_, by rw [hrun]; rfl, hbranch, hsame, fun x hx ↦ ?_⟩
          cases hx
          exact hparent
        · rw [if_neg fun hcon ↦ hlt (decide_eq_true hcon)]
          rw [merge_node_of_not_lt hlt] at hmerged ⊢
          have hsub : ((node a l r).toList ++ r'.toList).Nodup := by
            rw [← (toList_merge (ltOf comp) (node a l r) r').nodup_iff]
            exact (nodup_node.mp hmerged).2.1
          obtain ⟨m₁, hrun, hs, hframe, -⟩ := ih ht hr' hsub (by
            rw [toList_node, List.length_cons, List.length_append]
            omega)
          rw [root_node, ← hright'] at hrun
          obtain ⟨hbranch, hsame, hparent⟩ := hs.link hl' hmerged hleft'
            (fun x hx ↦ hup' x (.inl hx)) hframe
          refine ⟨_, by rw [hrun]; rfl, hbranch, hsame, fun x hx ↦ ?_⟩
          cases hx
          exact hparent

end Merge

/-! ## Removal -/

/-- The node `b` with the subtrees `l` and `r` is in a tree. -/
inductive Sub (b : α) (l r : SkewHeap α) : SkewHeap α → Prop
  | here : Sub b l r (node b l r)
  | left {a : α} {t u : SkewHeap α} : Sub b l r t → Sub b l r (node a t u)
  | right {a : α} {t u : SkewHeap α} : Sub b l r u → Sub b l r (node a t u)

section Remove

variable {comp : α → α → ℤ} {lt : α → α → Bool} {m m₂ : Links α} {a b p x : α}
  {l r s t u : SkewHeap α} {q : Option α} {fuel : ℕ}

omit [DecidableEq α] in
theorem exists_sub (h : b ∈ t.toList) : ∃ l r, Sub b l r t := by
  induction t with
  | nil => exact absurd h List.not_mem_nil
  | node a t u iht ihu =>
    rcases mem_node.mp h with rfl | h | h
    · exact ⟨t, u, .here⟩
    · obtain ⟨l, r, hsub⟩ := iht h
      exact ⟨l, r, hsub.left⟩
    · obtain ⟨l, r, hsub⟩ := ihu h
      exact ⟨l, r, hsub.right⟩

omit [DecidableEq α] in
theorem Sub.mem (h : Sub b l r t) (hx : x ∈ (node b l r).toList) : x ∈ t.toList := by
  induction h with
  | here => exact hx
  | left _ ih => exact mem_node.mpr (.inr (.inl ih))
  | right _ ih => exact mem_node.mpr (.inr (.inr ih))

omit [DecidableEq α] in
theorem Sub.nodup (h : Sub b l r t) (hnodup : t.toList.Nodup) : (node b l r).toList.Nodup := by
  induction h with
  | here => exact hnodup
  | left _ ih => exact ih (nodup_node.mp hnodup).2.1
  | right _ ih => exact ih (nodup_node.mp hnodup).2.2.1

omit [DecidableEq α] in
theorem Sub.branch (h : Sub b l r t) (ht : Branch m t) : Branch m (node b l r) := by
  induction h with
  | here => exact ht
  | left _ ih => exact ih ht.2.2.1
  | right _ ih => exact ih ht.2.2.2

omit [DecidableEq α] in
theorem Sub.self_mem (h : Sub b l r t) : b ∈ t.toList := h.mem (mem_node.mpr (.inl rfl))

omit [DecidableEq α] in
theorem Sub.length_le (h : Sub b l r t) :
    l.toList.length + r.toList.length < t.toList.length := by
  induction h with
  | here =>
    rw [toList_node, List.length_cons, List.length_append]
    exact Nat.lt_succ_self _
  | left _ ih =>
    rw [toList_node, List.length_cons, List.length_append]
    omega
  | right _ ih =>
    rw [toList_node, List.length_cons, List.length_append]
    omega

omit [DecidableEq α] in
/-- The node on top only occurs there. -/
theorem Sub.eq_of_root (h : Sub b l r t) (hnodup : t.toList.Nodup) (hroot : t.root = some b) :
    t = node b l r := by
  cases h with
  | here => rfl
  | left h =>
    cases hroot
    exact absurd h.self_mem (nodup_node.mp hnodup).1.1
  | right h =>
    cases hroot
    exact absurd h.self_mem (nodup_node.mp hnodup).1.2

omit [DecidableEq α] in
theorem Sub.root_notMem (h : Sub b l r t) (hnodup : t.toList.Nodup) (hroot : t.root = some x) :
    ¬(x ∈ l.toList ∨ x ∈ r.toList) := by
  intro hx
  cases h with
  | here =>
    cases hroot
    exact hx.elim (nodup_node.mp hnodup).1.1 (nodup_node.mp hnodup).1.2
  | left h =>
    cases hroot
    exact (nodup_node.mp hnodup).1.1 (h.mem (mem_node.mpr (.inr hx)))
  | right h =>
    cases hroot
    exact (nodup_node.mp hnodup).1.2 (h.mem (mem_node.mpr (.inr hx)))

theorem root_remove_of_ne (lt : α → α → Bool) (h : t.root ≠ some b) :
    (SkewHeap.remove lt t b).root = t.root := by
  cases t with
  | nil => rfl
  | node a l r =>
    have hne : a ≠ b := fun heq ↦ h (congrArg some heq)
    rw [SkewHeap.remove, if_neg hne]
    rfl

theorem splice_parent : (skewHeapSplice m p b q).parent = m.parent := by
  rw [skewHeapSplice]
  split_ifs
  · rfl
  · rfl

theorem setParent_same (h : x ≠ p) : Same m (m.setParent p q) x := by
  refine ⟨rfl, rfl, ?_⟩
  rw [Links.setParent]
  exact Function.update_of_ne h q m.parent

theorem setLeft_same (h : x ≠ p) : Same m (m.setLeft p q) x := by
  refine ⟨?_, rfl, rfl⟩
  rw [Links.setLeft]
  exact Function.update_of_ne h q m.left

theorem setRight_same (h : x ≠ p) : Same m (m.setRight p q) x := by
  refine ⟨rfl, ?_, rfl⟩
  rw [Links.setRight]
  exact Function.update_of_ne h q m.right

theorem splice_same (h : x ≠ p) : Same m (skewHeapSplice m p b q) x := by
  rw [skewHeapSplice]
  split_ifs
  · exact setLeft_same h
  · exact setRight_same h

/-- The node below its parent is replaced by the tree `s`. What is changed before is only in `s`. -/
theorem Sub.splice (h : Sub b l r t) (hnodup : t.toList.Nodup) (ht : Branch m t)
    (hne : t.root ≠ some b) (hs : Branch m₂ (SkewHeap.merge lt l r))
    (hframe : ∀ x, ¬(x ∈ l.toList ∨ x ∈ r.toList) → Same m m₂ x)
    (hup : ∀ x, (SkewHeap.merge lt l r).root = some x → m₂.parent x = m.parent b) :
    ∃ p, m.parent b = some p ∧ p ∈ t.toList ∧
      Branch (skewHeapSplice m₂ p b (SkewHeap.merge lt l r).root) (SkewHeap.remove lt t b) := by
  have hmem : ∀ x, x ∈ (SkewHeap.merge lt l r).toList ↔ x ∈ l.toList ∨ x ∈ r.toList :=
    fun _ ↦ mem_merge
  induction h with
  | here => exact absurd rfl hne
  | @left a t u h ih =>
    obtain ⟨⟨hat, hau⟩, hnt, hnu, hdisj⟩ := nodup_node.mp hnodup
    obtain ⟨⟨hleft, hright⟩, hparent, hbt, hbu⟩ := ht
    have hab : a ≠ b := fun heq ↦ hat (heq ▸ h.self_mem)
    have hbu' : b ∉ u.toList := hdisj b h.self_mem
    have hin : ∀ x, x ∈ l.toList ∨ x ∈ r.toList → x ∈ t.toList := fun x hx ↦
      h.mem (mem_node.mpr (.inr hx))
    have ha := hframe a fun hx ↦ hat (hin a hx)
    have hu : ∀ x ∈ u.toList, Same m m₂ x := fun x hx ↦
      hframe x fun hcon ↦ hdisj x (hin x hcon) hx
    rw [SkewHeap.remove, if_neg hab, remove_of_notMem hbu']
    -- either `b` is the child of `a`, and the merged tree takes its place, or the child stays
    by_cases htop : t.root = some b
    · obtain rfl := h.eq_of_root hnt htop
      rw [SkewHeap.remove, if_pos rfl]
      have hpb : m.parent b = some a := hparent b (.inl rfl)
      refine ⟨a, hpb, mem_node.mpr (.inl rfl), ?_⟩
      rw [skewHeapSplice, if_pos (ha.left.trans (hleft.trans htop))]
      refine ⟨⟨Function.update_self _ _ _, ha.right.trans hright⟩, ?_, ?_, ?_⟩
      · rintro x (hx | hx)
        · exact (hup x hx).trans hpb
        · exact (hu x (mem_of_root hx)).parent.trans (hparent x (.inr hx))
      · refine hs.of_same ?_ fun x hx ↦ setLeft_same ?_
        · rw [(toList_merge lt l r).nodup_iff]
          exact (List.nodup_cons.mp hnt).2
        · exact fun heq ↦ hat (heq ▸ hin x ((hmem x).mp hx))
      · refine hbu.of_same hnu fun x hx ↦ (hu x hx).trans (setLeft_same ?_)
        exact fun heq ↦ hau (heq ▸ hx)
    · obtain ⟨p, hpb, hp, hbranch⟩ := ih hnt hbt htop
      have hap : a ≠ p := fun heq ↦ hat (heq ▸ hp)
      refine ⟨p, hpb, mem_node.mpr (.inr (.inl hp)), ⟨⟨?_, ?_⟩, ?_, hbranch, ?_⟩⟩
      · rw [(splice_same hap).left, ha.left, hleft, root_remove_of_ne lt htop]
      · rw [(splice_same hap).right, ha.right, hright]
      · rw [root_remove_of_ne lt htop, splice_parent]
        rintro x (hx | hx)
        · exact (hframe x (h.root_notMem hnt hx)).parent.trans (hparent x (.inl hx))
        · exact (hu x (mem_of_root hx)).parent.trans (hparent x (.inr hx))
      · exact hbu.of_same hnu fun x hx ↦
          (hu x hx).trans (splice_same fun heq ↦ hdisj p hp (heq ▸ hx))
  | @right a t u h ih =>
    obtain ⟨⟨hat, hau⟩, hnt, hnu, hdisj⟩ := nodup_node.mp hnodup
    obtain ⟨⟨hleft, hright⟩, hparent, hbt, hbu⟩ := ht
    have hab : a ≠ b := fun heq ↦ hau (heq ▸ h.self_mem)
    have hbt' : b ∉ t.toList := fun hx ↦ hdisj b hx h.self_mem
    have hin : ∀ x, x ∈ l.toList ∨ x ∈ r.toList → x ∈ u.toList := fun x hx ↦
      h.mem (mem_node.mpr (.inr hx))
    have ha := hframe a fun hx ↦ hau (hin a hx)
    have ht : ∀ x ∈ t.toList, Same m m₂ x := fun x hx ↦
      hframe x fun hcon ↦ hdisj x hx (hin x hcon)
    rw [SkewHeap.remove, if_neg hab, remove_of_notMem hbt']
    by_cases htop : u.root = some b
    · obtain rfl := h.eq_of_root hnu htop
      rw [SkewHeap.remove, if_pos rfl]
      have hpb : m.parent b = some a := hparent b (.inr rfl)
      -- the source compares with the left child first, which is another node here
      have hnot : m₂.left a ≠ some b := by
        rw [ha.left, hleft]
        exact fun heq ↦ hbt' (mem_of_root heq)
      refine ⟨a, hpb, mem_node.mpr (.inl rfl), ?_⟩
      rw [skewHeapSplice, if_neg hnot]
      refine ⟨⟨ha.left.trans hleft, Function.update_self _ _ _⟩, ?_, ?_, ?_⟩
      · rintro x (hx | hx)
        · exact (ht x (mem_of_root hx)).parent.trans (hparent x (.inl hx))
        · exact (hup x hx).trans hpb
      · refine hbt.of_same hnt fun x hx ↦ (ht x hx).trans (setRight_same ?_)
        exact fun heq ↦ hat (heq ▸ hx)
      · refine hs.of_same ?_ fun x hx ↦ setRight_same ?_
        · rw [(toList_merge lt l r).nodup_iff]
          exact (List.nodup_cons.mp hnu).2
        · exact fun heq ↦ hau (heq ▸ hin x ((hmem x).mp hx))
    · obtain ⟨p, hpb, hp, hbranch⟩ := ih hnu hbu htop
      have hap : a ≠ p := fun heq ↦ hau (heq ▸ hp)
      refine ⟨p, hpb, mem_node.mpr (.inr (.inr hp)), ⟨⟨?_, ?_⟩, ?_, ?_, hbranch⟩⟩
      · rw [(splice_same hap).left, ha.left, hleft]
      · rw [(splice_same hap).right, ha.right, hright, root_remove_of_ne lt htop]
      · rw [root_remove_of_ne lt htop, splice_parent]
        rintro x (hx | hx)
        · exact (ht x (mem_of_root hx)).parent.trans (hparent x (.inl hx))
        · exact (hframe x (h.root_notMem hnu hx)).parent.trans (hparent x (.inr hx))
      · exact hbt.of_same hnt fun x hx ↦
          (ht x hx).trans (splice_same fun heq ↦ hdisj x hx (heq ▸ hp))

/-- `skew_heap_remove` of any node of the tree computes the tree without it. -/
theorem skewHeapRemove_run (ht : Branch m t) (htop : ∀ x, t.root = some x → m.parent x = none)
    (hnodup : t.toList.Nodup) (hb : b ∈ t.toList) (hfuel : t.toList.length < fuel) :
    ∃ m', skewHeapRemove comp fuel m t.root b =
        some ((SkewHeap.remove (ltOf comp) t b).root, m') ∧
      Branch m' (SkewHeap.remove (ltOf comp) t b) ∧
      ∀ x, (SkewHeap.remove (ltOf comp) t b).root = some x → m'.parent x = none := by
  obtain ⟨l, r, hsub⟩ := exists_sub hb
  obtain ⟨⟨hleft, hright⟩, -, hl, hr⟩ := hsub.branch ht
  have hlr := (List.nodup_cons.mp (hsub.nodup hnodup)).2
  have hlen := hsub.length_le
  obtain ⟨m₁, hrun, hs, hframe, -⟩ :=
    @skewHeapMerge_run _ _ comp m l r fuel hl hr hlr (by omega)
  have hmem : ∀ x, x ∈ (SkewHeap.merge (ltOf comp) l r).toList ↔ x ∈ l.toList ∨ x ∈ r.toList :=
    fun _ ↦ mem_merge
  have hnodup' : (SkewHeap.merge (ltOf comp) l r).toList.Nodup :=
    (toList_merge _ l r).nodup_iff.mpr hlr
  have hadopt : ∀ p, Branch (m₁.adopt (SkewHeap.merge (ltOf comp) l r).root p)
      (SkewHeap.merge (ltOf comp) l r) := by
    intro p
    refine hs.congr hnodup' (fun x _ ↦ ?_) fun x _ hne ↦ adopt_parent_of_ne p hne
    rw [adopt_left, adopt_right]
    exact ⟨rfl, rfl⟩
  rw [skewHeapRemove, hleft, hright, hrun, Option.map_some]
  -- without a parent the merged tree is the whole tree
  by_cases hroot : t.root = some b
  · obtain rfl := hsub.eq_of_root hnodup hroot
    rw [htop b hroot, SkewHeap.remove, if_pos rfl]
    exact ⟨_, rfl, hadopt none, fun x hx ↦ adopt_parent none hx⟩
  · have houter : ∀ p x, ¬(x ∈ l.toList ∨ x ∈ r.toList) →
        Same m (m₁.adopt (SkewHeap.merge (ltOf comp) l r).root p) x := by
      intro p x hx
      have hnot : x ∉ (SkewHeap.merge (ltOf comp) l r).toList := fun hcon ↦ hx ((hmem x).mp hcon)
      refine (hframe x hnot).trans ⟨?_, ?_, adopt_parent_of_ne p fun heq ↦ hnot (mem_of_root heq)⟩
      · rw [adopt_left]
      · rw [adopt_right]
    obtain ⟨p, hp, -, hbranch⟩ := hsub.splice hnodup ht hroot (hadopt (m.parent b))
      (houter (m.parent b)) fun x hx ↦ adopt_parent _ hx
    rw [hp] at hbranch ⊢
    refine ⟨_, ?_, hbranch, fun x hx ↦ ?_⟩
    · rw [root_remove_of_ne _ hroot]
    · rw [root_remove_of_ne _ hroot] at hx
      rw [splice_parent, (houter (some p) x (hsub.root_notMem hnodup hx)).parent]
      exact htop x hx

omit [DecidableEq α] in
theorem root_merge (lt : α → α → Bool) (t u : SkewHeap α) :
    (SkewHeap.merge lt t u).root = t.root ∨ (SkewHeap.merge lt t u).root = u.root := by
  cases t with
  | nil => exact .inr rfl
  | node a l r =>
    cases u with
    | nil => exact .inl rfl
    | node b l' r' =>
      by_cases hlt : lt a b = true
      · rw [merge_node_of_lt hlt]
        exact .inl rfl
      · rw [merge_node_of_not_lt hlt]
        exact .inr rfl

/-- `skew_heap_insert` of a node that is not in the tree. -/
theorem skewHeapInsert_run (ht : Branch m t) (htop : ∀ x, t.root = some x → m.parent x = none)
    (hnodup : t.toList.Nodup) (hb : b ∉ t.toList) (hfuel : t.toList.length + 1 < fuel) :
    ∃ m', skewHeapInsert comp fuel m t.root b =
        some ((SkewHeap.insert (ltOf comp) t b).root, m') ∧
      Branch m' (SkewHeap.insert (ltOf comp) t b) ∧
      ∀ x, (SkewHeap.insert (ltOf comp) t b).root = some x → m'.parent x = none := by
  have hinit : ∀ x, x ≠ b → Same m (skewHeapInit m b) x := fun x hx ↦
    ((setParent_same hx).trans (setRight_same hx)).trans (setLeft_same hx)
  have hself : (skewHeapInit m b).left b = none ∧ (skewHeapInit m b).right b = none ∧
      (skewHeapInit m b).parent b = none := by
    simp only [skewHeapInit, Links.setLeft, Links.setRight, Links.setParent, Function.update_self,
      and_self]
  have ht' : Branch (skewHeapInit m b) t := ht.of_same hnodup fun x hx ↦
    hinit x fun heq ↦ hb (heq ▸ hx)
  have hu : Branch (skewHeapInit m b) (node b nil nil) := by
    refine ⟨⟨hself.1, hself.2.1⟩, ?_, trivial, trivial⟩
    rintro x (hx | hx)
    · cases hx
    · cases hx
  have hdisj : (t.toList ++ (node b nil nil).toList).Nodup := by
    rw [toList_node, toList_nil, List.append_nil, List.nodup_append']
    refine ⟨hnodup, List.nodup_singleton b, fun x hx hxb ↦ ?_⟩
    exact hb (List.mem_singleton.mp hxb ▸ hx)
  obtain ⟨m', hrun, hbranch, -, hparent⟩ :=
    @skewHeapMerge_run _ _ comp _ t _ fuel ht' hu hdisj hfuel
  refine ⟨m', hrun, hbranch, fun x hx ↦ ?_⟩
  rw [hparent x hx]
  rcases root_merge (ltOf comp) t (node b nil nil) with heq | heq
  · have hroot := heq.symm.trans hx
    rw [(hinit x fun hxb ↦ hb (hxb ▸ mem_of_root hroot)).parent]
    exact htop x hroot
  · cases heq.symm.trans hx
    exact hself.2.2

end Remove

/-! ## Runs -/

/-- What callers of `skew_heap.h` do: `S` are the nodes that are in the heap. The comparison is a
total preorder of them, and so it is of what is inserted. It may change where it compares other
nodes, and for the node on top just before that is removed. -/
inductive Run : (α → α → ℤ) → Links α → Option α → Finset α → Prop
  | init (comp : α → α → ℤ) (m : Links α) : Run comp m none ∅
  | insert {comp : α → α → ℤ} {m m' : Links α} {a a' : Option α} {S : Finset α} {b : α} {fuel : ℕ}
      (h : Run comp m a S) (hb : b ∉ S) (hcomp : TotalOn (ltOf comp) (insert b S))
      (hrun : skewHeapInsert comp fuel m a b = some (a', m')) : Run comp m' a' (insert b S)
  | remove {comp : α → α → ℤ} {m m' : Links α} {a a' : Option α} {S : Finset α} {b : α} {fuel : ℕ}
      (h : Run comp m a S) (hb : b ∈ S)
      (hrun : skewHeapRemove comp fuel m a b = some (a', m')) : Run comp m' a' (S.erase b)
  | removeTop {comp comp' : α → α → ℤ} {m m' : Links α} {a' : Option α} {S : Finset α} {b : α}
      {fuel : ℕ} (h : Run comp m (some b) S)
      (hcomp : ∀ x ∈ S.erase b, ∀ y ∈ S.erase b, comp' x y = comp x y)
      (hrun : skewHeapRemove comp' fuel m (some b) b = some (a', m')) : Run comp' m' a' (S.erase b)
  | others {comp comp' : α → α → ℤ} {m m' : Links α} {a : Option α} {S : Finset α}
      (h : Run comp m a S) (hcomp : ∀ x ∈ S, ∀ y ∈ S, comp' x y = comp x y)
      (hm : ∀ x ∈ S, Same m m' x) : Run comp' m' a S

/-- The nodes of `S` form a binary tree with consistent links, no node is larger than its children,
and the node on top is a smallest one. -/
structure Correct (comp : α → α → ℤ) (m : Links α) (a : Option α) (S : Finset α) : Prop where
  tree : ∃ t : SkewHeap α, a = t.root ∧ Branch m t ∧ (∀ x, a = some x → m.parent x = none) ∧
    t.toList.Nodup ∧ ∀ x, x ∈ t.toList ↔ x ∈ S
  child : ∀ x ∈ S, ∀ y, m.left x = some y ∨ m.right x = some y → comp y x ≠ -1
  top : ∀ x, a = some x → ∀ y ∈ S, comp y x ≠ -1

/-- The invariant: a tree that is ordered by the rank of its nodes. -/
structure Inv (comp : α → α → ℤ) (m : Links α) (a : Option α) (S : Finset α) (t : SkewHeap α) :
    Prop where
  total : TotalOn (ltOf comp) S
  root : a = t.root
  branch : Branch m t
  parent : ∀ x, t.root = some x → m.parent x = none
  nodup : t.toList.Nodup
  mem : ∀ x, x ∈ t.toList ↔ x ∈ S
  ordered : t.Ordered (rank (ltOf comp) S)

section Run

variable {comp comp' : α → α → ℤ} {m m' : Links α} {a a' : Option α} {b : α} {S S' : Finset α}
  {t : SkewHeap α} {fuel : ℕ}

theorem Inv.card (h : Inv comp m a S t) : t.toList.length = S.card := by
  have heq : t.toList.toFinset = S := by
    ext x
    rw [List.mem_toFinset, h.mem]
  rw [← heq, List.toFinset_card_of_nodup h.nodup]

omit [DecidableEq α] in
/-- The ranks in another set of nodes, by a comparison that agrees, order the members in the same
way. -/
theorem ordered_of_agree (hordered : t.Ordered (rank (ltOf comp) S))
    (htotal : TotalOn (ltOf comp) S)
    (htotal' : TotalOn (ltOf comp') S') (hS : ∀ x ∈ t.toList, x ∈ S) (hS' : ∀ x ∈ t.toList, x ∈ S')
    (hcomp : ∀ x ∈ t.toList, ∀ y ∈ t.toList, comp' x y = comp x y) :
    t.Ordered (rank (ltOf comp') S') := by
  refine hordered.of_le fun x hx y hy hle ↦ ?_
  rw [htotal.rank_le_iff (hS x hx) (hS y hy)] at hle
  rw [htotal'.rank_le_iff (hS' x hx) (hS' y hy), ltOf, hcomp y hy x hx]
  exact hle

theorem Inv.insert_run (h : Inv comp m a S t) (hb : b ∉ S)
    (htotal : TotalOn (ltOf comp) (insert b S))
    (hfuel : S.card + 1 < fuel) : ∃ a' m', skewHeapInsert comp fuel m a b = some (a', m') ∧
      Inv comp m' a' (insert b S) (SkewHeap.insert (ltOf comp) t b) := by
  have hbt : b ∉ t.toList := fun hx ↦ hb ((h.mem b).mp hx)
  have hS : ∀ x ∈ t.toList, x ∈ S := fun x hx ↦ (h.mem x).mp hx
  have hS' : ∀ x ∈ t.toList, x ∈ insert b S := fun x hx ↦ Finset.mem_insert_of_mem (hS x hx)
  obtain ⟨m', hrun, hbranch, hparent⟩ := @skewHeapInsert_run _ _ comp m b t fuel h.branch h.parent
    h.nodup hbt (by rw [h.card]; exact hfuel)
  refine ⟨_, m', h.root ▸ hrun, htotal, rfl, hbranch, hparent, ?_, fun x ↦ ?_, ?_⟩
  · rw [(toList_insert _ t b).nodup_iff]
    exact List.nodup_cons.mpr ⟨hbt, h.nodup⟩
  · rw [mem_insert, Finset.mem_insert, h.mem]
  · refine (ordered_of_agree h.ordered h.total htotal hS hS' fun _ _ _ _ ↦ rfl).insert
      fun x hx y hy ↦ ?_
    rw [List.mem_singleton.mp hy]
    exact htotal.lt_iff_rank (hS' x hx) (Finset.mem_insert_self b S)

/-- Any node is removed while all nodes are in order. -/
theorem Inv.remove_run (h : Inv comp m a S t) (hb : b ∈ S) (hfuel : S.card < fuel) :
    ∃ a' m', skewHeapRemove comp fuel m a b = some (a', m') ∧
      Inv comp m' a' (S.erase b) (SkewHeap.remove (ltOf comp) t b) := by
  have hbt := (h.mem b).mpr hb
  obtain ⟨hnodup, hnot⟩ := nodup_remove (ltOf comp) h.nodup hbt
  have hsub := Finset.erase_subset b S
  have hperm := toList_remove (ltOf comp) h.nodup hbt
  have hmem : ∀ x, x ∈ (SkewHeap.remove (ltOf comp) t b).toList ↔ x ∈ S.erase b := by
    intro x
    rw [Finset.mem_erase, ← h.mem, hperm.mem_iff, List.mem_cons]
    constructor
    · exact fun hx ↦ ⟨fun heq ↦ hnot (heq ▸ hx), .inr hx⟩
    · exact fun hx ↦ hx.2.resolve_left hx.1
  obtain ⟨m', hrun, hbranch, hparent⟩ := @skewHeapRemove_run _ _ comp m b t fuel h.branch h.parent
    h.nodup hbt (by rw [h.card]; exact hfuel)
  refine ⟨_, m', h.root ▸ hrun, h.total.mono hsub, rfl, hbranch, hparent, hnodup, hmem, ?_⟩
  -- the keys are ranks in `S`; those in the smaller set order the nodes in the same way
  have hordered : (SkewHeap.remove (ltOf comp) t b).Ordered (rank (ltOf comp) S) :=
    h.ordered.remove fun x hx y hy ↦ h.total.lt_iff_rank ((h.mem x).mp hx) ((h.mem y).mp hy)
  exact ordered_of_agree hordered h.total (h.total.mono hsub)
    (fun x hx ↦ hsub ((hmem x).mp hx)) (fun x hx ↦ (hmem x).mp hx) fun _ _ _ _ ↦ rfl

/-- The node on top is removed, whatever has become of its key. -/
theorem Inv.removeTop_run (h : Inv comp m (some b) S t)
    (hcomp : ∀ x ∈ S.erase b, ∀ y ∈ S.erase b, comp' x y = comp x y) (hfuel : S.card < fuel) :
    ∃ a' m', skewHeapRemove comp' fuel m (some b) b = some (a', m') ∧
      Inv comp' m' a' (S.erase b) (SkewHeap.remove (ltOf comp') t b) := by
  have hroot : t.root = some b := h.root.symm
  have hbt := mem_of_root hroot
  have hsub := Finset.erase_subset b S
  obtain ⟨hnodup, hnot⟩ := nodup_remove (ltOf comp') h.nodup hbt
  have hperm := toList_remove (ltOf comp') h.nodup hbt
  have hmem : ∀ x, x ∈ (SkewHeap.remove (ltOf comp') t b).toList ↔ x ∈ S.erase b := by
    intro x
    rw [Finset.mem_erase, ← h.mem, hperm.mem_iff, List.mem_cons]
    constructor
    · exact fun hx ↦ ⟨fun heq ↦ hnot (heq ▸ hx), .inr hx⟩
    · exact fun hx ↦ hx.2.resolve_left hx.1
  have htotal : TotalOn (ltOf comp') (S.erase b) := (h.total.mono hsub).congr fun x hx y hy ↦ by
    rw [ltOf, hcomp x hx y hy, ltOf]
  obtain ⟨m', hrun, hbranch, hparent⟩ := @skewHeapRemove_run _ _ comp' m b t fuel h.branch h.parent
    h.nodup hbt (by rw [h.card]; exact hfuel)
  rw [hroot] at hrun
  refine ⟨_, m', hrun, htotal, rfl, hbranch, hparent, hnodup, hmem, ?_⟩
  have hordered : (SkewHeap.remove (ltOf comp') t b).Ordered (rank (ltOf comp) S) := by
    refine h.ordered.remove_root hroot (fun x hx y hy hxb hyb ↦ ?_) h.nodup
    have hx' := (h.mem x).mp hx
    have hy' := (h.mem y).mp hy
    rw [ltOf, hcomp x (Finset.mem_erase.mpr ⟨hxb, hx'⟩) y (Finset.mem_erase.mpr ⟨hyb, hy'⟩)]
    exact h.total.lt_iff_rank hx' hy'
  exact ordered_of_agree hordered h.total htotal (fun x hx ↦ hsub ((hmem x).mp hx))
    (fun x hx ↦ (hmem x).mp hx) fun x hx y hy ↦ hcomp x ((hmem x).mp hx) y ((hmem y).mp hy)

omit [DecidableEq α] in
/-- The members of an ordered tree are not larger than their children. -/
theorem child_le {κ : Type} [LinearOrder κ] {key : α → κ} (h : t.Ordered key) (hb : Branch m t)
    {x y : α} (hx : x ∈ t.toList) (hy : m.left x = some y ∨ m.right x = some y) :
    y ∈ t.toList ∧ key x ≤ key y := by
  induction t with
  | nil => exact absurd hx List.not_mem_nil
  | node a l r ihl ihr =>
    obtain ⟨⟨hleft, hright⟩, -, hbl, hbr⟩ := hb
    obtain ⟨hle, hol, hor⟩ := h
    rcases mem_node.mp hx with rfl | hx | hx
    · rw [hleft, hright] at hy
      have hmem : y ∈ l.toList ∨ y ∈ r.toList := hy.imp mem_of_root mem_of_root
      exact ⟨mem_node.mpr (.inr hmem), hle y (List.mem_append.mpr hmem)⟩
    · obtain ⟨hmem, hkey⟩ := ihl hol hbl hx
      exact ⟨mem_node.mpr (.inr (.inl hmem)), hkey⟩
    · obtain ⟨hmem, hkey⟩ := ihr hor hbr hx
      exact ⟨mem_node.mpr (.inr (.inr hmem)), hkey⟩

omit [DecidableEq α] in
theorem Inv.correct (h : Inv comp m a S t) : Correct comp m a S where
  tree := ⟨t, h.root, h.branch, fun x hx ↦ h.parent x (h.root ▸ hx), h.nodup, h.mem⟩
  child x hx y hy := by
    obtain ⟨hmem, hle⟩ := child_le h.ordered h.branch ((h.mem x).mpr hx) hy
    rw [h.total.rank_le_iff hx ((h.mem y).mp hmem)] at hle
    exact fun hcon ↦ hle (decide_eq_true hcon)
  top x hx y hy := by
    have hroot : t.root = some x := h.root.symm.trans hx
    have hle := h.ordered.root_le hroot ((h.mem y).mpr hy)
    rw [h.total.rank_le_iff ((h.mem x).mp (mem_of_root hroot)) hy] at hle
    exact fun hcon ↦ hle (decide_eq_true hcon)

/-- More fuel changes no answer. -/
theorem skewHeapMerge_mono {fuel' : ℕ} (hle : fuel ≤ fuel') {x : Option α × Links α}
    {b : Option α} (h : skewHeapMerge comp fuel m a b = some x) :
    skewHeapMerge comp fuel' m a b = some x := by
  induction fuel generalizing fuel' a b x with
  | zero => cases h
  | succ fuel ih =>
    obtain ⟨fuel', rfl⟩ := Nat.exists_eq_add_of_le' (Nat.one_le_of_lt hle)
    have hle' := Nat.le_of_succ_le_succ hle
    cases a with
    | none => exact h
    | some a =>
      cases b with
      | none => exact h
      | some b =>
        rw [skewHeapMerge] at h ⊢
        by_cases hcomp : comp a b = -1
        · rw [if_pos hcomp] at h ⊢
          obtain ⟨y, hy, hx⟩ := Option.map_eq_some_iff.mp h
          rw [ih hle' hy, Option.map_some, hx]
        · rw [if_neg hcomp] at h ⊢
          obtain ⟨y, hy, hx⟩ := Option.map_eq_some_iff.mp h
          rw [ih hle' hy, Option.map_some, hx]

theorem skewHeapInsert_unique {fuel' : ℕ} {x y : Option α × Links α}
    (h : skewHeapInsert comp fuel m a b = some x) (h' : skewHeapInsert comp fuel' m a b = some y) :
    x = y := by
  rcases le_total fuel fuel' with hle | hle
  · exact Option.some.inj ((skewHeapMerge_mono hle h).symm.trans h')
  · exact Option.some.inj (h.symm.trans (skewHeapMerge_mono hle h'))

theorem skewHeapRemove_mono {fuel' : ℕ} (hle : fuel ≤ fuel') {x : Option α × Links α}
    (h : skewHeapRemove comp fuel m a b = some x) : skewHeapRemove comp fuel' m a b = some x := by
  rw [skewHeapRemove] at h ⊢
  obtain ⟨y, hy, hx⟩ := Option.map_eq_some_iff.mp h
  rw [skewHeapMerge_mono hle hy, Option.map_some, hx]

theorem skewHeapRemove_unique {fuel' : ℕ} {x y : Option α × Links α}
    (h : skewHeapRemove comp fuel m a b = some x) (h' : skewHeapRemove comp fuel' m a b = some y) :
    x = y := by
  rcases le_total fuel fuel' with hle | hle
  · exact Option.some.inj ((skewHeapRemove_mono hle h).symm.trans h')
  · exact Option.some.inj (h.symm.trans (skewHeapRemove_mono hle h'))

omit [DecidableEq α] in
theorem Inv.others (h : Inv comp m a S t) (hcomp : ∀ x ∈ S, ∀ y ∈ S, comp' x y = comp x y)
    (hm : ∀ x ∈ S, Same m m' x) : Inv comp' m' a S t := by
  have htotal : TotalOn (ltOf comp') S := h.total.congr fun x hx y hy ↦ by
    rw [ltOf, hcomp x hx y hy, ltOf]
  have hS : ∀ x ∈ t.toList, x ∈ S := fun x hx ↦ (h.mem x).mp hx
  refine ⟨htotal, h.root, h.branch.of_same h.nodup fun x hx ↦ hm x (hS x hx), fun x hx ↦ ?_,
    h.nodup, h.mem, ?_⟩
  · rw [(hm x (hS x (mem_of_root hx))).parent]
    exact h.parent x hx
  · exact ordered_of_agree h.ordered h.total htotal hS hS fun x hx y hy ↦
      hcomp x (hS x hx) y (hS y hy)

/-- The invariant holds in every run. -/
theorem Run.inv (h : Run comp m a S) : ∃ t, Inv comp m a S t := by
  induction h with
  | init comp m =>
    refine ⟨nil, ⟨⟨?_, ?_⟩, rfl, trivial, ?_, List.nodup_nil, ?_, trivial⟩⟩
    · exact fun x hx ↦ absurd hx (Finset.notMem_empty x)
    · exact fun x hx ↦ absurd hx (Finset.notMem_empty x)
    · exact fun x hx ↦ by cases hx
    · exact fun x ↦ iff_of_false List.not_mem_nil (Finset.notMem_empty x)
  | insert _ hb hcomp hrun ih =>
    obtain ⟨t, hinv⟩ := ih
    obtain ⟨a', m', hrun', hinv'⟩ := hinv.insert_run hb hcomp (Nat.lt_succ_self _)
    cases skewHeapInsert_unique hrun hrun'
    exact ⟨_, hinv'⟩
  | remove _ hb hrun ih =>
    obtain ⟨t, hinv⟩ := ih
    obtain ⟨a', m', hrun', hinv'⟩ := hinv.remove_run hb (Nat.lt_succ_self _)
    cases skewHeapRemove_unique hrun hrun'
    exact ⟨_, hinv'⟩
  | removeTop _ hcomp hrun ih =>
    obtain ⟨t, hinv⟩ := ih
    obtain ⟨a', m', hrun', hinv'⟩ := hinv.removeTop_run hcomp (Nat.lt_succ_self _)
    cases skewHeapRemove_unique hrun hrun'
    exact ⟨_, hinv'⟩
  | others _ hcomp hm ih =>
    obtain ⟨t, hinv⟩ := ih
    exact ⟨t, hinv.others hcomp hm⟩

/-- In every run the nodes that were inserted and not removed form an ordered binary tree, and the
operations return. -/
theorem run_correct (h : Run comp m a S) : Correct comp m a S ∧
    (∀ b ∉ S, TotalOn (ltOf comp) (insert b S) → ∀ fuel > S.card + 1,
      (skewHeapInsert comp fuel m a b).isSome) ∧
    (∀ b ∈ S, ∀ fuel > S.card, (skewHeapRemove comp fuel m a b).isSome) ∧
    ∀ b, a = some b → ∀ comp' : α → α → ℤ,
      (∀ x ∈ S.erase b, ∀ y ∈ S.erase b, comp' x y = comp x y) → ∀ fuel > S.card,
        (skewHeapRemove comp' fuel m a b).isSome := by
  obtain ⟨t, hinv⟩ := h.inv
  refine ⟨hinv.correct, fun b hb hcomp fuel hfuel ↦ ?_, fun b hb fuel hfuel ↦ ?_, ?_⟩
  · obtain ⟨a', m', hrun, -⟩ := hinv.insert_run hb hcomp hfuel
    rw [hrun]
    rfl
  · obtain ⟨a', m', hrun, -⟩ := hinv.remove_run hb hfuel
    rw [hrun]
    rfl
  · rintro b rfl comp' hcomp fuel hfuel
    obtain ⟨a', m', hrun, -⟩ := hinv.removeTop_run hcomp hfuel
    rw [hrun]
    rfl

/-- The comparison of keys. -/
def byKey (key : α → ℕ) (a b : α) : ℤ :=
  if key b < key a then 1 else if key a = key b then 0 else -1

omit [DecidableEq α] in
theorem totalOn_byKey (key : α → ℕ) (S : Finset α) : TotalOn (ltOf (byKey key)) S := by
  have hlt : ∀ a b, ltOf (byKey key) a b = true ↔ key a < key b := by
    intro a b
    rw [ltOf, decide_eq_true_iff, byKey]
    split_ifs with h₁ h₂
    · exact iff_of_false (by decide) h₁.not_gt
    · exact iff_of_false (by decide) h₂.not_lt
    · exact iff_of_true rfl (by omega)
  constructor
  · intro a _ b _
    rw [hlt, hlt]
    omega
  · intro a _ b _ c _
    rw [hlt, hlt, hlt]
    omega

/-- The node 2 is on top when its key goes up, and is removed. -/
theorem run_correct_sample : ∃ (comp : ℕ → ℕ → ℤ) (m : Links ℕ) (S : Finset ℕ),
    1 ∈ S ∧ 2 ∉ S ∧ Correct comp m (some 1) S := by
  have h₁ : Run (byKey fun x : ℕ ↦ 10 - x) _ (some 1) (insert 1 ∅) :=
    .insert (.init _ ⟨some, some, some⟩) (Finset.notMem_empty 1) (totalOn_byKey _ _)
      (rfl : skewHeapInsert _ 3 _ none 1 = some (some 1, _))
  have h₂ : Run (byKey fun x : ℕ ↦ 10 - x) _ (some 2) (insert 2 (insert 1 ∅)) :=
    .insert h₁ (by decide) (totalOn_byKey _ _)
      (rfl : skewHeapInsert _ 3 _ (some 1) 2 = some (some 2, _))
  have h₃ : Run (byKey fun x : ℕ ↦ if x = 2 then 20 else 10 - x) _ (some 1)
      ((insert 2 (insert 1 ∅) : Finset ℕ).erase 2) :=
    .removeTop h₂ (by decide) (rfl : skewHeapRemove _ 3 _ (some 2) 2 = some (some 1, _))
  exact ⟨_, _, _, by decide, by decide, (run_correct h₃).1⟩

end Run

end Ucore.SkewLinks
