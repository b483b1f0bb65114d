import Mathlib.Tactic
import Mathlib.Data.List.Perm.Basic

/-!
# Skew heaps

Self-adjusting heaps without a stored rank: two heaps are merged along their right spines, and every
node on the way has its subtrees swapped. The comparison is a parameter and no law is asked of it:
the results below are about which members a heap has, not about their order.
-/

/-- A binary tree of members. -/
inductive SkewHeap (α : Type)
  | nil
  | node (a : α) (left right : SkewHeap α)
  deriving DecidableEq, Repr

namespace SkewHeap

variable {α : Type}

/-- The members, each as often as it occurs. -/
def toList : SkewHeap α → List α
  | nil => []
  | node a l r => a :: (l.toList ++ r.toList)

/-- The member on top. -/
def root : SkewHeap α → Option α
  | nil => none
  | node a _ _ => some a

/-- The walk down the right spine of the second heap, `a` being the root of the first one, `l` its
left subtree and `mergeRight` what merges its right subtree with a heap. -/
def mergeNode (lt : α → α → Bool) (a : α) (l r : SkewHeap α)
    (mergeRight : SkewHeap α → SkewHeap α) : SkewHeap α → SkewHeap α
  | nil => node a l r
  | node b l' r' =>
    if lt a b then node a (mergeRight (node b l' r')) l
    else node b (mergeNode lt a l r mergeRight r') l'

/-- Merge two heaps. -/
def merge (lt : α → α → Bool) : SkewHeap α → SkewHeap α → SkewHeap α
  | nil => id
  | node a l r => mergeNode lt a l r (merge lt r)

/-- Insert a member. -/
def insert (lt : α → α → Bool) (t : SkewHeap α) (a : α) : SkewHeap α := merge lt t (node a nil nil)

/-- Take a member out: its place is taken by the merge of its subtrees. -/
def remove [DecidableEq α] (lt : α → α → Bool) (t : SkewHeap α) (a : α) : SkewHeap α :=
  match t with
  | nil => nil
  | node b l r => if b = a then merge lt l r else node b (remove lt l a) (remove lt r a)

variable {lt : α → α → Bool} {a : α} {t u : SkewHeap α}

@[simp] theorem toList_nil : (nil : SkewHeap α).toList = [] := rfl

@[simp] theorem toList_node (a : α) (l r : SkewHeap α) :
    (node a l r).toList = a :: (l.toList ++ r.toList) := rfl

@[simp] theorem root_nil : (nil : SkewHeap α).root = none := rfl

@[simp] theorem root_node (a : α) (l r : SkewHeap α) : (node a l r).root = some a := rfl

/-- Merging loses no member and adds none. -/
theorem toList_merge (lt : α → α → Bool) (t u : SkewHeap α) :
    (merge lt t u).toList.Perm (t.toList ++ u.toList) := by
  induction t generalizing u with
  | nil => exact List.Perm.refl _
  | node a l r _ ih =>
    rw [merge]
    induction u with
    | nil =>
      rw [mergeNode, toList_nil, List.append_nil]
    | node b l' r' _ ih' =>
      rw [mergeNode]
      by_cases hlt : lt a b = true
      · rw [if_pos hlt, toList_node, toList_node]
        refine List.Perm.cons a ?_
        calc (merge lt r (node b l' r')).toList ++ l.toList
            |>.Perm (r.toList ++ (node b l' r').toList ++ l.toList) := (ih _).append_right _
          _ |>.Perm (l.toList ++ (r.toList ++ (node b l' r').toList)) := List.perm_append_comm
          _ |>.Perm (l.toList ++ r.toList ++ (node b l' r').toList) := by rw [List.append_assoc]
      · rw [if_neg hlt, toList_node]
        calc b :: ((mergeNode lt a l r (merge lt r) r').toList ++ l'.toList)
            |>.Perm (b :: ((node a l r).toList ++ r'.toList ++ l'.toList)) :=
              (ih'.append_right _).cons b
          _ |>.Perm (b :: ((node a l r).toList ++ (l'.toList ++ r'.toList))) := by
              rw [List.append_assoc]
              exact (List.perm_append_comm.append_left _).cons b
          _ |>.Perm ((node a l r).toList ++ (node b l' r').toList) := List.perm_middle.symm

theorem toList_insert (lt : α → α → Bool) (t : SkewHeap α) (a : α) :
    (insert lt t a).toList.Perm (a :: t.toList) := by
  refine (toList_merge lt t _).trans ?_
  rw [toList_node, toList_nil, List.append_nil]
  exact List.perm_append_comm

theorem root_eq_none_iff : t.root = none ↔ t = nil := by
  cases t with
  | nil => simp
  | node b l r => simp

theorem mem_of_root (h : t.root = some a) : a ∈ t.toList := by
  cases t with
  | nil => cases h
  | node b l r =>
    cases h
    exact List.mem_cons_self

variable [DecidableEq α]

/-- Taking the root out leaves the other members. -/
theorem toList_remove_root (lt : α → α → Bool) (h : t.root = some a) :
    t.toList.Perm (a :: (remove lt t a).toList) := by
  cases t with
  | nil => cases h
  | node b l r =>
    cases h
    rw [remove, if_pos rfl, toList_node]
    exact (toList_merge lt l r).symm.cons a

end SkewHeap
