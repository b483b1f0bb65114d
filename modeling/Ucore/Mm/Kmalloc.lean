import Ucore.Lib.Tally
import Ucore.Mm.FreeAreaRuns

/-!
# The allocator of the kernel

`kern/mm/kmalloc.c`, over the page allocator of `default_pmm.c`. Addresses are counted in units of
16 bytes, the size of a `slob_t`, from the first page on, so that page `p` starts at unit `256 * p`.
The circular list of free blocks is the list of its blocks from `slobfree` on, each with its field
`units`; the field `units` of a block that is in use is kept in `header`.

A request below `PAGE_SIZE - SLOB_UNIT` is cut off the first block with enough room, and a page is
taken for the list when there is none. A larger one gets pages of its own, and a record of them that
is cut off the list as well. The other users of the pages take part in a run with calls of their
own.

## The invariant

`Ledger` counts every unit of the pages that the list was given once, in a free block or in one that
is out, and `Stock` says that the page allocator agrees: what it has out are the pages of the list,
those of the large requests and those of the others. An allocation of pages keeps `Stock` always,
and a release keeps it where the block goes in front of another one or into an empty list. The main
result is `kmalloc_honours`.
-/

namespace Ucore.Kmalloc

open Tally Extents

/-- What ends a call early. -/
inductive Fault
  /-- The assertion of `slob_alloc` fails. -/
  | assertion
  /-- A loop goes round for ever. -/
  | rounds
  /-- The only block of the list is linked to itself, where the code takes it for two. -/
  | link
  /-- The page allocator stops the machine. -/
  | pages
  deriving DecidableEq, Repr

def slobUnits (size : ℕ) : ℕ := (size + 16 - 1) / 16

def pageSize : ℕ := 4096

/-- The units of `1 << order` pages. -/
def orderUnits (order : ℕ) : ℕ := 256 * 2 ^ order

/-- `bigblock_t`, at `addr`. -/
structure BigBlock where
  addr : ℕ
  order : ℕ
  pages : ℕ
  deriving DecidableEq, Repr

/-- The state of the allocator and of the page allocator below it, and the pages that the one has
from the other. -/
structure Heap where
  free : List (ℕ × ℕ)
  header : ℕ → ℕ
  big : List BigBlock
  granted : List (ℕ × ℕ)
  area : FreeArea

/-- `__slob_get_free_pages`, with `alloc_pages` as it is while the swap manager is off: where there
are no pages it answers `NULL`. -/
def slobGetFreePages (order : ℕ) (h : Heap) : Except Fault (Option ℕ × Heap) :=
  match (defaultAllocPages (2 ^ order)).run h.area with
  | .ok (some page) area =>
    .ok (some (256 * page),
      { h with granted := (256 * page, orderUnits order) :: h.granted, area := area })
  | .ok none area => .ok (none, { h with area := area })
  | _ => .error .pages

def slobFreePages (p order : ℕ) (h : Heap) : Except Fault Heap :=
  match (defaultFreePages (p / 256) (2 ^ order)).run h.area with
  | .ok _ area => .ok { h with granted := h.granted.erase (p, orderUnits order), area := area }
  | _ => .error .pages

/-! ## Blocks -/

/-- The reinsertion point of `b` is between `cur` and `next`. -/
def Here (b cur next : ℕ) : Prop := cur < b ∧ b < next ∨ next ≤ cur ∧ (cur < b ∨ b < next)

instance (b cur next : ℕ) : Decidable (Here b cur next) := inferInstanceAs (Decidable (_ ∨ _))

/-- The loop of `slob_free`: the list from the reinsertion point on. -/
def findPlace (b : ℕ) : ℕ → List (ℕ × ℕ) → Except Fault ((ℕ × ℕ) × List (ℕ × ℕ))
  | fuel + 1, cur :: tl =>
    if Here b cur.1 (tl.headD cur).1 then .ok (cur, tl) else findPlace b fuel (tl ++ [cur])
  | _, _ => .error .rounds

/-- `b` is linked in front of what follows `cur`, or joined with it. -/
def joinNext (b cur : ℕ × ℕ) : List (ℕ × ℕ) → Except Fault ((ℕ × ℕ) × List (ℕ × ℕ))
  | [] => if b.1 + b.2 = cur.1 then .error .link else .ok (b, [])
  | next :: tl =>
    if b.1 + b.2 = next.1 then .ok ((b.1, b.2 + next.2), tl) else .ok (b, next :: tl)

/-- `b` is linked behind `cur`, or joined with it. -/
def joinCur (cur b : ℕ × ℕ) (tl : List (ℕ × ℕ)) : List (ℕ × ℕ) :=
  if cur.1 + cur.2 = b.1 then (cur.1, cur.2 + b.2) :: tl else cur :: b :: tl

/-- `slob_free`, for the block `b` and its units. -/
def slobFree (b : ℕ × ℕ) (free : List (ℕ × ℕ)) : Except Fault (List (ℕ × ℕ)) := do
  let r ← findPlace b.1 free.length free
  let s ← joinNext b r.1 r.2
  pure (joinCur r.1 s.1 s.2)

/-- The units `units` are taken off `cur`. -/
def cut (units : ℕ) (cur : ℕ × ℕ) (tl : List (ℕ × ℕ)) : List (ℕ × ℕ) :=
  if cur.2 = units then tl else (cur.1 + units, cur.2 - units) :: tl

/-- A round of the loop of `slob_alloc` through the list: the first block with enough room. -/
def firstFit (units : ℕ) : ℕ → List (ℕ × ℕ) → Except Fault (Option (ℕ × List (ℕ × ℕ)))
  | fuel + 1, prev :: cur :: tl =>
    if units ≤ cur.2 then .ok (some (cur.1, prev :: cut units cur tl))
    else firstFit units fuel (cur :: (tl ++ [prev]))
  | fuel + 1, [cur] => if units ≤ cur.2 then .error .link else firstFit units fuel [cur]
  | _, _ => .ok none

variable {arena : ℕ}

/-- The loop of `slob_alloc`; the alignment is always zero. -/
def slobAllocLoop (size : ℕ) : ℕ → Heap → Except Fault (Option ℕ × Heap)
  | 0, _ => .error .rounds
  | n + 1, h => do
    match ← firstFit (slobUnits size) h.free.length h.free with
    | some r =>
      pure (some r.1,
        { h with free := r.2, header := Function.update h.header r.1 (slobUnits size) })
    | none =>
      if size = pageSize then pure (none, h)
      else
        match ← slobGetFreePages 0 h with
        | (none, h) => pure (none, h)
        | (some p, h) => do
          let free ← slobFree (p, slobUnits pageSize) h.free
          slobAllocLoop size n { h with free := free }

def slobAlloc (size : ℕ) (h : Heap) : Except Fault (Option ℕ × Heap) :=
  if (size + 16) % 2 ^ 64 < pageSize then slobAllocLoop size 2 h else .error .assertion

/-! ## Requests -/

def findOrder (size : ℤ) : ℕ :=
  if _h : 4096 < size then findOrder (size / 2) + 1 else 0
termination_by size.toNat
decreasing_by omega

/-- The order for a request: `find_order` takes an `int`. -/
def orderOf (size : ℕ) : ℕ := findOrder ((size : ℤ).bmod (2 ^ 32))

/-- `__kmalloc`; `sizeof(bigblock_t)` is 24. -/
def kmalloc (size : ℕ) (h : Heap) : Except Fault (Option ℕ × Heap) :=
  if size < pageSize - 16 then do
    let m ← slobAlloc (size + 16) h
    pure (m.1.map (· + 1), m.2)
  else do
    let bb ← slobAlloc 24 h
    match bb.1 with
    | none => pure (none, bb.2)
    | some addr =>
      match ← slobGetFreePages (orderOf size) bb.2 with
      | (some p, h) => pure (some p, { h with big := ⟨addr, orderOf size, p⟩ :: h.big })
      | (none, h) => do
        let free ← slobFree (addr, slobUnits 24) h.free
        pure (none, { h with free := free })

/-- `kfree`, of a block that is not null. -/
def kfree (p : ℕ) (h : Heap) : Except Fault Heap :=
  match if 256 ∣ p then h.big.find? (·.pages == p) else none with
  | some b => do
    let h ← slobFreePages p b.order h
    let free ← slobFree (b.addr, slobUnits 24) h.free
    pure { h with free := free, big := h.big.eraseP (·.pages == p) }
  | none => do
    let free ← slobFree (p - 1, h.header (p - 1)) h.free
    pure { h with free := free }

/-! ## Runs -/

/-- The allocator and the requests that are live, with what they were given: those below the size
at which pages are taken, and those from there on. What other users of `alloc_pages` have are the
pages of `others`. -/
structure Sys where
  heap : Heap
  small : List (ℕ × ℕ)
  large : List (ℕ × ℕ)
  others : List (ℕ × ℕ)

namespace Sys

/-- Before the first request the list holds `arena`; pages may be out already. -/
def init (arena : ℕ) (others : List (ℕ × ℕ)) (area : FreeArea) : Sys :=
  ⟨⟨[(arena, 1)], fun _ ↦ 0, [], [], area⟩, [], [], others⟩

/-- A request. -/
def kmalloc (n : ℕ) (s : Sys) : Except Fault Sys := do
  let r ← Kmalloc.kmalloc n s.heap
  match r.1 with
  | none => pure { s with heap := r.2 }
  | some p =>
    if n < pageSize - 16 then pure { s with heap := r.2, small := (p, n) :: s.small }
    else pure { s with heap := r.2, large := (p, n) :: s.large }

/-- A live block is found by comparing. -/
local instance lawfulBEq_block : LawfulBEq (ℕ × ℕ) := inferInstance

/-- A live block is freed. -/
def kfree (e : ℕ × ℕ) (s : Sys) : Except Fault Sys := do
  let h ← Kmalloc.kfree e.1 s.heap
  if e ∈ s.small then pure { s with heap := h, small := s.small.erase e }
  else pure { s with heap := h, large := s.large.erase e }

/-- Somebody else takes `n` pages. -/
def takePages (n : ℕ) (s : Sys) : Except Fault Sys :=
  match (defaultAllocPages n).run s.heap.area with
  | .ok (some page) area =>
    .ok { s with heap := { s.heap with area := area }, others := (page, n) :: s.others }
  | .ok none area => .ok { s with heap := { s.heap with area := area } }
  | _ => .error .pages

/-- Somebody else gives pages back. -/
def givePages (o : ℕ × ℕ) (s : Sys) : Except Fault Sys :=
  match (defaultFreePages o.1 o.2).run s.heap.area with
  | .ok _ area => .ok { s with heap := { s.heap with area := area }, others := s.others.erase o }
  | _ => .error .pages

/-- Where `kfree` gives pages back, they go into an empty free list or in front of another block. -/
def Tidy (s : Sys) (e : ℕ × ℕ) : Prop :=
  e ∉ s.small → PmmCall.Tidy false s.heap.area (.freePages (e.1 / 256) (2 ^ orderOf e.2))

/-- The byte `x` is one of those that were asked for. -/
def InBytes (e : ℕ × ℕ) (x : ℕ) : Prop := 16 * e.1 ≤ x ∧ x < 16 * e.1 + e.2

/-- The byte `x` belongs to the allocator: to a free block, to the record of pages, or to the header
of a block. -/
def Metadata (s : Sys) (x : ℕ) : Prop :=
  (∃ b ∈ s.heap.free, b.1 ≤ x / 16 ∧ x / 16 < b.1 + b.2) ∨
    (∃ b ∈ s.heap.big, b.addr ≤ x / 16 ∧ x / 16 < b.addr + slobUnits 24) ∨
    ∃ e ∈ s.small, x / 16 = e.1 - 1

/-- Every live request has the bytes it asked for, and has them for itself. -/
structure Honoured (s : Sys) : Prop where
  owned : ∀ e ∈ s.small ++ s.large, ∀ x, InBytes e x →
    ∃ g ∈ s.heap.granted, g.1 ≤ x / 16 ∧ x / 16 < g.1 + g.2
  apart : ∀ e ∈ s.small ++ s.large, ∀ x, InBytes e x → ∀ o ∈ s.others,
    ¬ (256 * o.1 ≤ x / 16 ∧ x / 16 < 256 * (o.1 + o.2))
  separate : (s.small ++ s.large).Pairwise fun e e' ↦ ∀ x, ¬ (InBytes e x ∧ InBytes e' x)
  metadata : ∀ e ∈ s.small ++ s.large, ∀ x, InBytes e x → ¬ s.Metadata x

end Sys

/-- The sizes for which the three computations of the code agree: the size of a small block passes
the assertion of `slob_alloc`, and `find_order`, which drops the low bits of an `int`, drops none
that count. -/
def Fits (n : ℕ) : Prop :=
  1 ≤ n ∧ (n < 4064 ∨
    4080 ≤ n ∧ n < 2 ^ 31 ∧ ∀ k, 1 ≤ k → ¬ (4096 * 2 ^ k < n ∧ n < 4097 * 2 ^ k))

/-- The states that runs reach in which every request has such a size, and every block of pages that
is given back goes into an empty free list or in front of another block. -/
inductive Reachable (arena : ℕ) : Sys → Prop
  | init {npage : ℕ} {calls : List PmmCall} {c : Ucore.Ledger} {area : FreeArea}
      (hrun : defaultPmmManager.Run (PmmCall.Tidy false) npage calls c area)
      (harena : ∀ p ∈ c.managed, arena + 1 < 256 * p) : Reachable arena (Sys.init arena c.live area)
  | kmalloc {s s' : Sys} (n : ℕ) (hs : Reachable arena s) (hn : Fits n)
      (h : s.kmalloc n = .ok s') : Reachable arena s'
  | kfree {s s' : Sys} (e : ℕ × ℕ) (hs : Reachable arena s) (he : e ∈ s.small ++ s.large)
      (htidy : s.Tidy e) (h : s.kfree e = .ok s') : Reachable arena s'
  | takePages {s s' : Sys} (n : ℕ) (hs : Reachable arena s) (hn : 0 < n)
      (h : s.takePages n = .ok s') : Reachable arena s'
  | givePages {s s' : Sys} (o : ℕ × ℕ) (hs : Reachable arena s) (ho : o ∈ s.others)
      (htidy : PmmCall.Tidy false s.heap.area (.freePages o.1 o.2))
      (h : s.givePages o = .ok s') : Reachable arena s'

/-! ## The pages -/

/-- Some pages, in units. -/
def unitsOf (o : ℕ × ℕ) : ℕ × ℕ := (256 * o.1, 256 * o.2)

theorem unitsOf_injective : Function.Injective unitsOf := by
  rintro ⟨a, n⟩ ⟨b, m⟩ h
  rw [unitsOf, unitsOf, Prod.mk.injEq] at h
  exact Prod.ext (by dsimp only at h ⊢; omega) (by dsimp only at h ⊢; omega)

/-- The page allocator agrees on what is out: the pages of `granted` and those of the others. The
pages lie behind the kernel's own data. -/
def Stock (arena : ℕ) (others : List (ℕ × ℕ)) (area : FreeArea) (granted : List (ℕ × ℕ)) : Prop :=
  ∃ (c : Ucore.Ledger) (xs : List (ℕ × ℕ)), c.Agrees area xs ∧
    (c.live.map unitsOf).Perm (granted ++ others.map unitsOf) ∧ ∀ p ∈ c.managed, arena + 1 < 256 * p

namespace Stock

variable {arena : ℕ} {others granted : List (ℕ × ℕ)} {area : FreeArea}

/-- Runs of pages that are disjoint lie one behind the other. -/
theorem apart_of_disjoint {x y : ℕ × ℕ} (h : Disjoint (span x) (span y)) (hx : 0 < x.2)
    (hy : 0 < y.2) : x.1 + x.2 ≤ y.1 ∨ y.1 + y.2 ≤ x.1 := by
  have h1 := Finset.disjoint_left.mp h (start_mem_span hx)
  have h2 := Finset.disjoint_right.mp h (start_mem_span hy)
  rw [mem_span] at h1 h2
  omega

/-- What the allocator answers lies behind the kernel's own data and apart from all that is out. -/
theorem alloc (S : Stock arena others area granted) {n : ℕ} (hn : 0 < n) :
    (defaultAllocPages n).run area = .ok none area ∨
    ∃ page area', (defaultAllocPages n).run area = .ok (some page) area' ∧
      arena + 1 < 256 * page ∧
      (∀ e ∈ granted, 256 * page + 256 * n ≤ e.1 ∨ e.1 + e.2 ≤ 256 * page) ∧
      Stock arena others area' ((256 * page, 256 * n) :: granted) ∧
      Stock arena ((page, n) :: others) area' granted := by
  obtain ⟨c, xs, h, hperm, hlow⟩ := S
  rcases Pmm.allocPages_run Pmm.searches_default h.rep hn with
    ⟨page, area', ys, hrun, hrep, -, hsub, hcover⟩ | ⟨hrun, -⟩
  swap
  · exact .inl hrun
  have hgive := h.give hn hrep hsub hcover
  have hin : page ∈ c.managed := by
    have hmem := hsub (start_mem_span (x := (page, n)) hn)
    rw [h.cover_free] at hmem
    exact (Finset.mem_sdiff.mp hmem).1
  have hout := (List.pairwise_cons.mp hgive.live_disjoint).1
  have hnew : ((c.give page n).live.map unitsOf).Perm
      ((256 * page, 256 * n) :: (granted ++ others.map unitsOf)) := hperm.cons _
  refine .inr ⟨page, area', hrun, hlow page hin, fun e he ↦ ?_, ⟨_, ys, hgive, hnew, hlow⟩,
    ⟨_, ys, hgive, hnew.trans List.perm_middle.symm, hlow⟩⟩
  obtain ⟨y, hy, rfl⟩ := List.mem_map.mp (hperm.mem_iff.mpr (List.mem_append_left _ he))
  have hapart := apart_of_disjoint (hout y hy) hn (h.pos y hy)
  rw [unitsOf]
  dsimp only at hapart ⊢
  omega

/-- What the others have is apart from what is granted. -/
theorem apart (S : Stock arena others area granted) {e o : ℕ × ℕ} (he : e ∈ granted)
    (ho : o ∈ others) : e.1 + e.2 ≤ 256 * o.1 ∨ 256 * (o.1 + o.2) ≤ e.1 := by
  obtain ⟨c, xs, h, hperm, -⟩ := S
  have hpair : (granted ++ others.map unitsOf).Pairwise fun x y ↦
      x.1 + x.2 ≤ y.1 ∨ y.1 + y.2 ≤ x.1 := by
    refine (hperm.pairwise_iff fun hxy ↦ hxy.symm).mp (List.pairwise_map.mpr ?_)
    refine h.live_disjoint.imp_of_mem fun {x y} hx hy hdisj ↦ ?_
    have hapart := apart_of_disjoint hdisj (h.pos x hx) (h.pos y hy)
    rw [unitsOf, unitsOf]
    dsimp only
    omega
  have hboth := (List.pairwise_append.mp hpair).2.2 e he _ (List.mem_map_of_mem ho)
  rw [unitsOf] at hboth
  dsimp only at hboth
  omega

/-- Pages that are out are given back. -/
theorem free (S : Stock arena others area granted) {o : ℕ × ℕ}
    (ho : unitsOf o ∈ granted ++ others.map unitsOf)
    (htidy : PmmCall.Tidy false area (.freePages o.1 o.2)) :
    ∃ area', (defaultFreePages o.1 o.2).run area = .ok () area' ∧
      (unitsOf o ∈ granted → Stock arena others area' (granted.erase (unitsOf o))) ∧
      (o ∈ others → Stock arena (others.erase o) area' granted) := by
  have hapart := fun he ho ↦ S.apart (e := unitsOf o) (o := o) he ho
  obtain ⟨c, xs, h, hperm, hlow⟩ := S
  obtain ⟨o', hlive, heq⟩ := List.mem_map.mp (hperm.mem_iff.mpr ho)
  obtain rfl := unitsOf_injective heq
  obtain ⟨hn, hsub, hdisj⟩ := h.release hlive
  obtain ⟨area', ys, hrun, hrep, -, hcover⟩ := Pmm.freePages_run h.rep hn hsub hdisj htidy
  have htake := h.take hlive hrep hcover
  have herase : ((c.take o'.1 o'.2).live.map unitsOf).Perm
      ((granted ++ others.map unitsOf).erase (unitsOf o')) := by
    rw [Ledger.take, List.map_erase unitsOf_injective]
    exact hperm.erase _
  refine ⟨area', hrun, fun hmem ↦ ⟨_, ys, htake, ?_, hlow⟩, fun hmem ↦ ⟨_, ys, htake, ?_, hlow⟩⟩
  · rwa [List.erase_append_left _ hmem] at herase
  · have hnot : unitsOf o' ∉ granted := fun he ↦ by
      have hout := hapart he hmem
      rw [unitsOf] at hout
      dsimp only at hout
      omega
    rwa [List.erase_append_right _ hnot, ← List.map_erase unitsOf_injective] at herase

end Stock

/-! ## The list of free blocks -/

section Free

variable {b cur : ℕ × ℕ} {free tl : List (ℕ × ℕ)}

/-- Where the loop of `slob_free` does not end in `fuel` rounds, it has passed `fuel` blocks. -/
theorem not_here_of_error {x fuel : ℕ} {f : Fault} (h : findPlace x fuel free = .error f) {k : ℕ}
    (hk : k < fuel) (hrot : free.rotate k = cur :: tl) : ¬ Here x cur.1 (tl.headD cur).1 := by
  induction fuel generalizing free k with
  | zero => omega
  | succ fuel ih =>
    cases free with
    | nil =>
      rw [List.rotate_nil] at hrot
      exact absurd hrot nofun
    | cons c cs =>
      rw [findPlace] at h
      split_ifs at h with hhere
      cases k with
      | zero =>
        rw [List.rotate_zero] at hrot
        cases hrot
        exact hhere
      | succ k =>
        rw [List.rotate_cons_succ] at hrot
        exact ih h (Nat.lt_of_succ_lt_succ hk) hrot

/-- Going round from a block below `x` without coming to the place of `x`, the addresses would
ascend for ever. -/
theorem exists_here {c : ℕ → ℕ} {n x : ℕ} (hper : ∀ i, c (i + n) = c i) (hn : 0 < n)
    (hne : ∀ i, c i ≠ x) {j : ℕ} (hj : c j < x) : ∃ i, Here x (c i) (c (i + 1)) := by
  by_contra hnone
  rw [not_exists] at hnone
  have hup : ∀ i, c (j + i) < x ∧ c j ≤ c (j + i) ∧ (0 < i → c j < c (j + i)) := by
    intro i
    induction i with
    | zero => exact ⟨hj, le_rfl, fun h ↦ absurd h (lt_irrefl 0)⟩
    | succ i ih =>
      have hstep := hnone (j + i)
      have hnext := hne (j + i + 1)
      rw [Here] at hstep
      rw [← Nat.add_assoc]
      omega
  have hround := (hup n).2.2 hn
  rw [hper] at hround
  exact lt_irrefl _ hround

/-- The reinsertion point is found: there is a block below `x`, and none at it. -/
theorem findPlace_ok {x : ℕ} (hne : ∀ e ∈ free, e.1 ≠ x) {low : ℕ × ℕ} (hlow : low ∈ free)
    (hlt : low.1 < x) : ∃ r, findPlace x free.length free = .ok r := by
  cases hres : findPlace x free.length free with
  | ok r => exact ⟨r, rfl⟩
  | error f =>
    exfalso
    have hn : 0 < free.length := List.length_pos_of_mem hlow
    -- the addresses of the blocks, round and round
    let c : ℕ → ℕ := fun i ↦ ((free[i % free.length]?).getD (0, 0)).1
    have hc : ∀ {i e}, free[i % free.length]? = some e → c i = e.1 := fun h ↦ by
      simp only [c, h, Option.getD_some]
    have hmem : ∀ i, ∃ e ∈ free, c i = e.1 := fun i ↦
      ⟨_, List.getElem_mem (Nat.mod_lt i hn), hc (List.getElem?_eq_getElem _)⟩
    obtain ⟨j, hj, hjlow⟩ := List.getElem_of_mem hlow
    have hstart : c j < x := by
      rw [hc (i := j) (e := low) (by rw [Nat.mod_eq_of_lt hj, List.getElem?_eq_getElem hj, hjlow])]
      exact hlt
    obtain ⟨i, hi⟩ := exists_here (c := c) (n := free.length)
      (fun i ↦ by simp only [c, Nat.add_mod_right]) hn
      (fun i ↦ by obtain ⟨e, he, heq⟩ := hmem i; rw [heq]; exact hne e he) hstart
    cases hrot : free.rotate (i % free.length) with
    | nil =>
      rw [List.rotate_eq_nil_iff] at hrot
      rw [hrot] at hlow
      exact absurd hlow List.not_mem_nil
    | cons cur tl =>
      refine not_here_of_error hres (Nat.mod_lt i hn) hrot ?_
      have hlen : (cur :: tl).length = free.length := by rw [← hrot, List.length_rotate]
      have hcur : c i = cur.1 := by
        have h := List.getElem?_rotate (n := i % free.length) hn
        rw [hrot, Nat.zero_add, Nat.mod_mod] at h
        exact hc h.symm
      have hnext : c (i + 1) = (tl.headD cur).1 := by
        cases tl with
        | nil =>
          rw [List.headD_nil, ← hcur]
          rw [List.length_singleton] at hlen
          simp only [c, ← hlen, Nat.mod_one]
        | cons nx tl =>
          have hone : 1 < free.length := by
            rw [← hlen]
            exact Nat.succ_lt_succ (Nat.succ_pos _)
          have h := List.getElem?_rotate (n := i % free.length) hone
          rw [hrot, Nat.add_mod_mod, Nat.add_comm] at h
          exact hc h.symm
      rw [← hcur, ← hnext]
      exact hi

/-- The reinsertion point splits a rotation of the list. -/
theorem findPlace_perm {x fuel : ℕ} {r : (ℕ × ℕ) × List (ℕ × ℕ)}
    (h : findPlace x fuel free = .ok r) : free.Perm (r.1 :: r.2) := by
  induction fuel generalizing free with
  | zero => exact absurd h nofun
  | succ fuel ih =>
    cases free with
    | nil => exact absurd h nofun
    | cons c cs =>
      rw [findPlace] at h
      split_ifs at h
      · cases h
        exact List.Perm.refl _
      · exact (List.perm_append_singleton c cs).symm.trans (ih h)

/-- What `slob_free` needs of the list: `arena` is in it, and lies below the other blocks, and no
block is empty. -/
structure Linked (arena : ℕ) (free : List (ℕ × ℕ)) : Prop where
  arena_mem : (arena, 1) ∈ free
  pos : ∀ e ∈ free, 1 ≤ e.2

/-- A block is put back: it is in the list then, perhaps as a part of another one. -/
theorem slobFree_ok (hfree : Linked arena free) (hb : arena + 1 < b.1) (hunits : 1 ≤ b.2)
    (hne : ∀ e ∈ free, e.1 ≠ b.1) :
    ∃ free', slobFree b free = .ok free' ∧ Linked arena free' ∧
      (∀ x, tally free' x = tally free x + inside b x) ∧ ∃ e ∈ free', b.2 ≤ e.2 := by
  obtain ⟨⟨cur, tl⟩, hplace⟩ := findPlace_ok hne hfree.arena_mem (by omega)
  have hperm := findPlace_perm hplace
  have hpos : ∀ e ∈ cur :: tl, 1 ≤ e.2 := fun e he ↦ hfree.pos e (hperm.mem_iff.mpr he)
  have harena : (arena, 1) ∈ cur :: tl := hperm.mem_iff.mp hfree.arena_mem
  -- what is linked behind `cur`
  obtain ⟨b', tl', hjoin, hstart, hle, hcount, hrest⟩ : ∃ b' tl', joinNext b cur tl = .ok
    (b', tl') ∧
      b'.1 = b.1 ∧ b.2 ≤ b'.2 ∧ (∀ x, inside b' x + tally tl' x = inside b x + tally tl x) ∧
      (∀ e ∈ tl', e ∈ tl) ∧ ((arena, 1) ∈ tl → (arena, 1) ∈ tl') := by
    cases tl with
    | nil =>
      have hcur : cur = (arena, 1) := (List.mem_singleton.mp harena).symm
      refine ⟨b, [], if_neg (by rw [hcur]; dsimp only; omega), rfl, le_rfl, fun x ↦ rfl,
        fun e he ↦ he, id⟩
    | cons next tl =>
      by_cases hnext : b.1 + b.2 = next.1
      · refine ⟨(b.1, b.2 + next.2), tl, if_pos hnext, rfl, Nat.le_add_right _ _, fun x ↦ ?_,
          fun e he ↦ List.mem_cons_of_mem _ he, fun h ↦ ?_⟩
        · rw [inside_add, tally_cons, hnext]
          exact Nat.add_assoc ..
        · refine (List.mem_cons.mp h).resolve_left fun heq ↦ ?_
          rw [← heq] at hnext
          dsimp only at hnext
          omega
      · exact ⟨b, next :: tl, if_neg hnext, rfl, le_rfl, fun x ↦ rfl, fun e he ↦ he, id⟩
  refine ⟨joinCur cur b' tl', ?_, ?_⟩
  · rw [slobFree, hplace]
    change (joinNext b cur tl >>= fun s ↦ pure (joinCur cur s.1 s.2)) = _
    rw [hjoin]
    rfl
  have hcurpos := hpos cur List.mem_cons_self
  have htlpos : ∀ e ∈ tl', 1 ≤ e.2 := fun e he ↦ hpos e (List.mem_cons_of_mem _ (hrest.1 e he))
  have htotal : ∀ x, tally free x = inside cur x + tally tl x := tally_of_perm hperm
  unfold joinCur
  split_ifs with hprev
  · -- the two are joined; the upper one lies too high for the lower one to be `arena`
    refine ⟨⟨?_, List.forall_mem_cons.mpr ⟨by dsimp only; omega, htlpos⟩⟩, fun x ↦ ?_,
      _, List.mem_cons_self, by dsimp only; omega⟩
    · rcases List.mem_cons.mp harena with heq | hmem
      · rw [← heq] at hprev
        dsimp only at hprev
        omega
      · exact List.mem_cons_of_mem _ (hrest.2 hmem)
    · have := hcount x
      have hb' : inside (cur.1 + cur.2, b'.2) x = inside b' x := by rw [hprev]
      rw [tally_cons, inside_add, hb', htotal]
      change inside cur x + _ + _ = _
      omega
  · refine ⟨⟨?_, List.forall_mem_cons.mpr ⟨hcurpos, List.forall_mem_cons.mpr ⟨by omega, htlpos⟩⟩⟩,
      fun x ↦ ?_, b', List.mem_cons_of_mem _ List.mem_cons_self, hle⟩
    · rcases List.mem_cons.mp harena with heq | hmem
      · rw [← heq]
        exact List.mem_cons_self
      · exact List.mem_cons_of_mem _ (List.mem_cons_of_mem _ (hrest.2 hmem))
    · have := hcount x
      rw [tally_cons, tally_cons, htotal]
      omega

theorem Linked.perm {free' : List (ℕ × ℕ)} (h : Linked arena free) (hperm : free.Perm free') :
    Linked arena free' :=
  ⟨hperm.mem_iff.mp h.arena_mem, fun e he ↦ h.pos e (hperm.mem_iff.mpr he)⟩

/-- Units are taken off a block that is not `arena`. -/
theorem Linked.cut {prev : ℕ × ℕ} {units : ℕ} (hunits : 2 ≤ units)
    (h : Linked arena (prev :: cur :: tl)) (hfit : units ≤ cur.2) :
    Linked arena (prev :: Kmalloc.cut units cur tl) ∧
      ∀ x, tally (prev :: cur :: tl) x =
        tally (prev :: Kmalloc.cut units cur tl) x + inside (cur.1, units) x := by
  have hne : (arena, 1) ≠ cur := fun heq ↦ by
    rw [← heq] at hfit
    dsimp only at hfit
    omega
  have harena : (arena, 1) = prev ∨ (arena, 1) ∈ tl :=
    (List.mem_cons.mp h.arena_mem).imp_right fun hmem ↦ (List.mem_cons.mp hmem).resolve_left hne
  unfold Kmalloc.cut
  split_ifs with hexact
  · refine ⟨⟨List.mem_cons.mpr harena, fun e he ↦ h.pos e ?_⟩, fun x ↦ ?_⟩
    · exact (List.mem_cons.mp he).elim (fun h ↦ h ▸ List.mem_cons_self) fun h ↦
        List.mem_cons_of_mem _ (List.mem_cons_of_mem _ h)
    · rw [tally_cons, tally_cons, tally_cons, ← hexact]
      change _ + (inside cur x + _) = _ + inside cur x
      omega
  · refine ⟨⟨List.mem_cons.mpr (harena.imp_right (List.mem_cons_of_mem _)), ?_⟩, fun x ↦ ?_⟩
    · refine List.forall_mem_cons.mpr ⟨h.pos _ List.mem_cons_self, List.forall_mem_cons.mpr
        ⟨by dsimp only; omega, fun e he ↦ h.pos e ?_⟩⟩
      exact List.mem_cons_of_mem _ (List.mem_cons_of_mem _ he)
    · have hsplit := inside_add cur.1 units (cur.2 - units) x
      rw [Nat.add_sub_cancel' hfit] at hsplit
      change inside cur x = _ at hsplit
      rw [tally_cons, tally_cons, tally_cons, tally_cons, hsplit]
      omega

/-- What a round through the list finds: a block that is cut off, or none with enough room. -/
theorem firstFit_ok {units : ℕ} (hunits : 2 ≤ units) (hfree : Linked arena free) {fuel : ℕ}
    (hfuel : fuel ≤ free.length) :
    (firstFit units fuel free = .ok none ∧ ∀ e ∈ (free.rotate 1).take fuel, e.2 < units) ∨
    ∃ m free', firstFit units fuel free = .ok (some (m, free')) ∧ Linked arena free' ∧
      ∀ x, tally free x = tally free' x + inside (m, units) x := by
  induction fuel generalizing free with
  | zero =>
    refine .inl ⟨by rw [firstFit]; rintro _ _ _ _ ⟨⟩; rintro _ _ ⟨⟩, fun e he ↦ ?_⟩
    rw [List.take_zero] at he
    exact absurd he List.not_mem_nil
  | succ fuel ih =>
    rcases free with _ | ⟨prev, _ | ⟨cur, tl⟩⟩
    · exact absurd hfree.arena_mem List.not_mem_nil
    · -- `arena` alone
      have hprev : prev = (arena, 1) := (List.mem_singleton.mp hfree.arena_mem).symm
      have hsmall : prev.2 < units := by rw [hprev]; omega
      have hzero : fuel = 0 := by
        rw [List.length_singleton] at hfuel
        omega
      subst hzero
      refine .inl ⟨?_, fun e he ↦ ?_⟩
      · rw [firstFit, if_neg hsmall.not_ge]
        rfl
      · rw [List.rotate_singleton] at he
        rw [List.mem_singleton.mp (List.mem_of_mem_take he)]
        exact hsmall
    · rw [firstFit]
      by_cases hfit : units ≤ cur.2
      · obtain ⟨hlinked, hcount⟩ := hfree.cut hunits hfit
        exact .inr ⟨cur.1, _, if_pos hfit, hlinked, hcount⟩
      · rw [if_neg hfit]
        have hrot : (prev :: cur :: tl).Perm (cur :: (tl ++ [prev])) :=
          (List.perm_append_singleton prev (cur :: tl)).symm
        rcases ih (hfree.perm hrot) (by simp at hfuel ⊢; omega) with ⟨hnone, hall⟩ | hfound
        · refine .inl ⟨hnone, ?_⟩
          have htake : ((cur :: (tl ++ [prev])).rotate 1).take fuel = (tl ++ [prev]).take fuel := by
            rw [List.rotate_cons_succ, List.rotate_zero,
              List.take_append_of_le_length (by simp at hfuel ⊢; omega)]
          rw [htake] at hall
          rw [List.rotate_cons_succ, List.rotate_zero, List.cons_append, List.take_succ_cons]
          exact List.forall_mem_cons.mpr ⟨not_le.mp hfit, hall⟩
        · obtain ⟨m, free', hres, hlinked, hcount⟩ := hfound
          exact .inr ⟨m, free', hres, hlinked, fun x ↦ (tally_perm hrot x).trans (hcount x)⟩

/-- Where a round finds nothing, no block of the list has enough room. -/
theorem firstFit_round {units : ℕ} (hunits : 2 ≤ units) (hfree : Linked arena free) :
    (firstFit units free.length free = .ok none ∧ ∀ e ∈ free, e.2 < units) ∨
    ∃ m free', firstFit units free.length free = .ok (some (m, free')) ∧ Linked arena free' ∧
      ∀ x, tally free x = tally free' x + inside (m, units) x := by
  refine (firstFit_ok hunits hfree le_rfl).imp_left fun h ↦ ⟨h.1, fun e he ↦ h.2 e ?_⟩
  rw [← List.length_rotate free 1, List.take_length, List.mem_rotate]
  exact he

end Free

/-! ## The ledger -/

/-- Every unit of the pages that the list of blocks was given, and `arena`, is counted once: in a
free block or in one of the extents `held`. The other pages are `bigs`. -/
structure Ledger (arena : ℕ) (others : List (ℕ × ℕ)) (h : Heap) (held bigs : List (ℕ × ℕ)) :
    Prop where
  stock : Stock arena others h.area h.granted
  linked : Linked arena h.free
  above : ∀ e ∈ h.granted, arena + 1 < e.1
  disjoint : ∀ x, inside (arena, 1) x + tally h.granted x ≤ 1
  pages : ∃ sp, h.granted.Perm (sp ++ bigs) ∧
    ∀ x, tally h.free x + tally held x = inside (arena, 1) x + tally sp x

namespace Ledger

variable {others : List (ℕ × ℕ)} {h : Heap} {held held' bigs bigs' : List (ℕ × ℕ)} {b : ℕ × ℕ}

theorem perm (L : Ledger arena others h held bigs) (hheld : held.Perm held')
    (hbigs : bigs.Perm bigs') : Ledger arena others h held' bigs' := by
  obtain ⟨sp, hsp, hcount⟩ := L.pages
  refine ⟨L.stock, L.linked, L.above, L.disjoint, sp, hsp.trans (hbigs.append_left sp), fun x ↦ ?_⟩
  rw [← tally_perm hheld, hcount]

/-- No unit is counted twice. -/
theorem count_le (L : Ledger arena others h held bigs) (x : ℕ) :
    tally h.free x + tally held x + tally bigs x ≤ 1 := by
  obtain ⟨sp, hsp, hcount⟩ := L.pages
  have hle := L.disjoint x
  rw [tally_perm hsp, tally_append] at hle
  rw [hcount]
  omega

/-- A held extent lies in the pages. -/
theorem held_granted (L : Ledger arena others h held bigs) {x : ℕ} (hx : 1 ≤ tally held x) :
    1 ≤ tally h.granted x := by
  obtain ⟨sp, hsp, hcount⟩ := L.pages
  have hle := L.count_le x
  have hthis := hcount x
  rw [tally_perm hsp, tally_append]
  by_cases harena : 1 ≤ inside (arena, 1) x
  · have hmem := inside_le_tally L.linked.arena_mem x
    omega
  · omega

/-- A held extent lies behind `arena`. -/
theorem held_above (L : Ledger arena others h (b :: held) bigs) (hb : 1 ≤ b.2) :
    arena + 1 < b.1 := by
  have hx : 1 ≤ tally (b :: held) b.1 := by
    rw [tally_cons, inside_start hb]
    omega
  obtain ⟨e, he, hle, -⟩ := exists_of_tally_pos (L.held_granted hx)
  exact (L.above e he).trans_le hle

/-- A held extent is put back. -/
theorem slobFree (L : Ledger arena others h (b :: held) bigs) (hb : 1 ≤ b.2) :
    ∃ free', Kmalloc.slobFree b h.free = .ok free' ∧
      Ledger arena others { h with free := free' } held bigs ∧ ∃ e ∈ free', b.2 ≤ e.2 := by
  have hne : ∀ e ∈ h.free, e.1 ≠ b.1 := by
    intro e he heq
    have hcount := L.count_le b.1
    have hfree := inside_le_tally he b.1
    rw [← heq, inside_start (L.linked.pos e he)] at hfree
    rw [tally_cons, inside_start hb, ← heq] at hcount
    omega
  obtain ⟨free', hres, hlinked, hcount, hroom⟩ := slobFree_ok L.linked (L.held_above hb) hb hne
  obtain ⟨sp, hsp, htotal⟩ := L.pages
  refine ⟨free', hres, ⟨L.stock, hlinked, L.above, L.disjoint, sp, hsp, fun x ↦ ?_⟩, hroom⟩
  have := htotal x
  rw [tally_cons] at this
  dsimp only
  rw [hcount]
  omega

/-- Pages that lie behind the kernel's own data and apart from all that is granted are counted once
when they are granted too. -/
theorem granted_disjoint (L : Ledger arena others h held bigs) {k p : ℕ} (habove : arena + 1 < p)
    (hfresh : ∀ e ∈ h.granted, p + orderUnits k ≤ e.1 ∨ e.1 + e.2 ≤ p) (x : ℕ) :
    inside (arena, 1) x + tally ((p, orderUnits k) :: h.granted) x ≤ 1 := by
  have hle := L.disjoint x
  rw [tally_cons]
  by_cases hin : 1 ≤ inside (p, orderUnits k) x
  · have hx := mem_of_inside hin
    dsimp only at hx
    have hnone : tally h.granted x = 0 := tally_eq_zero fun e he ↦ by
      have := hfresh e he
      omega
    have harena : inside (arena, 1) x = 0 := if_neg (by dsimp only; omega)
    rw [hnone, harena, inside_of_mem hx]
  · omega

/-- `__slob_get_free_pages` finds nothing, or its pages can go to a large request, or to the list
when it is one page. -/
theorem getFreePages (L : Ledger arena others h held bigs) (k : ℕ) :
    slobGetFreePages k h = .ok (none, h) ∨
    ∃ p h', slobGetFreePages k h = .ok (some p, h') ∧ 256 ∣ p ∧ h'.free = h.free ∧
      h'.header = h.header ∧ h'.big = h.big ∧
      Ledger arena others h' held ((p, orderUnits k) :: bigs) ∧
      (k = 0 → Ledger arena others h' ((p, slobUnits pageSize) :: held) bigs) := by
  rcases L.stock.alloc (Nat.two_pow_pos k) with
    hrun | ⟨page, area, hrun, habove, hfresh, hstock, -⟩
  · refine .inl ?_
    rw [slobGetFreePages, hrun]
  obtain ⟨sp, hsp, hcount⟩ := L.pages
  have hgranted : ∀ e ∈ (256 * page, orderUnits k) :: h.granted, arena + 1 < e.1 :=
    List.forall_mem_cons.mpr ⟨habove, L.above⟩
  refine .inr ⟨256 * page, { h with
      granted := (256 * page, orderUnits k) :: h.granted, area := area }, ?_, ⟨page, rfl⟩, rfl, rfl,
    rfl, ⟨hstock, L.linked, hgranted, L.granted_disjoint habove hfresh, sp,
      (hsp.cons _).trans List.perm_middle.symm, hcount⟩, fun hk ↦ ?_⟩
  · rw [slobGetFreePages, hrun]
  · refine ⟨hstock, L.linked, hgranted, L.granted_disjoint habove hfresh,
      (256 * page, orderUnits k) :: sp, hsp.cons _, fun x ↦ ?_⟩
    have hunits : slobUnits pageSize = orderUnits k := by
      rw [hk]
      rfl
    have := hcount x
    rw [tally_cons, tally_cons, hunits]
    dsimp only
    omega

/-- Pages of a large request are given back. -/
theorem freePages {p k : ℕ} (L : Ledger arena others h held ((p, orderUnits k) :: bigs))
    (hp : 256 ∣ p) (htidy : PmmCall.Tidy false h.area (.freePages (p / 256) (2 ^ k))) :
    ∃ h', slobFreePages p k h = .ok h' ∧ h'.free = h.free ∧ h'.header = h.header ∧
      h'.big = h.big ∧ Ledger arena others h' held bigs := by
  obtain ⟨sp, hsp, hcount⟩ := L.pages
  have hext : unitsOf (p / 256, 2 ^ k) = (p, orderUnits k) :=
    Prod.ext (Nat.mul_div_cancel' hp) rfl
  have hmem : (p, orderUnits k) ∈ h.granted :=
    hsp.mem_iff.mpr (List.mem_append_right _ List.mem_cons_self)
  obtain ⟨area, hrun, hstock, -⟩ := L.stock.free (o := (p / 256, 2 ^ k))
    (hext ▸ List.mem_append_left _ hmem) htidy
  rw [hext] at hstock
  have hperm : (h.granted.erase (p, orderUnits k)).Perm (sp ++ bigs) := by
    have := (hsp.trans List.perm_middle).erase (p, orderUnits k)
    rwa [List.erase_cons_head] at this
  refine ⟨{ h with granted := h.granted.erase (p, orderUnits k), area := area }, ?_, rfl, rfl, rfl,
    hstock hmem, L.linked, fun e he ↦ L.above e (List.mem_of_mem_erase he), fun x ↦ ?_, sp, hperm,
    hcount⟩
  · rw [slobFreePages, hrun]
  · have hle := L.disjoint x
    rw [tally_perm hsp, tally_append, tally_cons] at hle
    dsimp only
    rw [tally_perm hperm, tally_append]
    omega

/-- The record of the large requests does not matter to the ledger. -/
theorem setBig (L : Ledger arena others h held bigs) (big : List BigBlock) :
    Ledger arena others { h with big := big } held bigs :=
  ⟨L.stock, L.linked, L.above, L.disjoint, L.pages⟩

/-- A block is cut off, or there is none with enough room. -/
theorem firstFit (L : Ledger arena others h held bigs) {units : ℕ} (hunits : 2 ≤ units) :
    (Kmalloc.firstFit units h.free.length h.free = .ok none ∧ ∀ e ∈ h.free, e.2 < units) ∨
    ∃ m free', Kmalloc.firstFit units h.free.length h.free = .ok (some (m, free')) ∧
      ∀ header, Ledger arena others { h with free := free', header := header } ((m, units) :: held)
        bigs := by
  refine (firstFit_round hunits L.linked).imp_right ?_
  rintro ⟨m, free', hres, hlinked, hcount⟩
  obtain ⟨sp, hsp, htotal⟩ := L.pages
  refine ⟨m, free', hres, fun header ↦ ⟨L.stock, hlinked, L.above, L.disjoint, sp, hsp,
    fun x ↦ ?_⟩⟩
  have := htotal x
  rw [hcount] at this
  rw [tally_cons]
  dsimp only
  omega

/-- `slob_alloc` ends: with a block of enough units, or without memory. -/
theorem slobAlloc (L : Ledger arena others h held bigs) {size : ℕ} (hsize : 16 < size)
    (hfits : size + 16 < pageSize) :
    (∃ h', Kmalloc.slobAlloc size h = .ok (none, h') ∧ Ledger arena others h' held bigs ∧
      h'.header = h.header ∧ h'.big = h.big) ∨
    ∃ m h', Kmalloc.slobAlloc size h = .ok (some m, h') ∧
      Ledger arena others h' ((m, slobUnits size) :: held) bigs ∧
      h'.header = Function.update h.header m (slobUnits size) ∧ h'.big = h.big := by
  have hsmall : size < 4080 := by
    rw [pageSize] at hfits
    omega
  have hunits : 2 ≤ slobUnits size := by
    rw [slobUnits]
    omega
  have hpass : Kmalloc.slobAlloc size h = slobAllocLoop size 2 h := by
    refine if_pos ?_
    rw [Nat.mod_eq_of_lt (by omega)]
    exact hfits
  have hne : size ≠ pageSize := by
    rw [pageSize]
    omega
  rw [hpass, slobAllocLoop]
  rcases L.firstFit hunits with ⟨hnone, -⟩ | ⟨m, free', hres, hL⟩
  · rw [hnone]
    rcases L.getFreePages 0 with hget | ⟨p, h', hget, -, hfree, hheader, hbig, -, hlist⟩
    · refine .inl ⟨h, ?_, L, rfl, rfl⟩
      simp only [Except.bind, bind, if_neg hne, hget]
      rfl
    · obtain ⟨free', hput, hL, e, he, hroom⟩ := (hlist rfl).slobFree
        (by decide : 1 ≤ slobUnits pageSize)
      -- the page that was put back has room enough
      rcases hL.firstFit hunits with ⟨-, hall⟩ | ⟨m, free₂, hres, hL⟩
      · have hlt := hall e he
        have hpage : slobUnits pageSize = 256 := rfl
        rw [slobUnits] at hlt
        omega
      · refine .inr ⟨m, _, ?_, hL (Function.update h'.header m (slobUnits size)), by rw [hheader],
          hbig⟩
        dsimp only at hput hres
        simp only [Except.bind, bind, if_neg hne, hget, hput, slobAllocLoop, hres]
        rfl
  · refine .inr ⟨m, _, ?_, hL _, rfl, rfl⟩
    rw [hres]
    rfl

end Ledger

/-! ## The invariant -/

/-- The block of a small request. -/
def smallExt (e : ℕ × ℕ) : ℕ × ℕ := (e.1 - 1, slobUnits (e.2 + 16))

/-- The pages of a large request. -/
def largeExt (e : ℕ × ℕ) : ℕ × ℕ := (e.1, orderUnits (orderOf e.2))

namespace BigBlock

/-- The block of the record. -/
def recExt (b : BigBlock) : ℕ × ℕ := (b.addr, slobUnits 24)

/-- The pages of the record. -/
def pagesExt (b : BigBlock) : ℕ × ℕ := (b.pages, orderUnits b.order)

theorem pagesExt_pos (b : BigBlock) : 1 ≤ b.pagesExt.2 := by
  rw [pagesExt, orderUnits]
  exact Nat.succ_le_of_lt (by positivity)

end BigBlock

/-- The invariant of runs. -/
structure Inv (arena : ℕ) (s : Sys) : Prop where
  ledger : Ledger arena s.others s.heap (s.small.map smallExt ++ s.heap.big.map BigBlock.recExt)
    (s.heap.big.map BigBlock.pagesExt)
  small : ∀ e ∈ s.small, 1 ≤ e.1 ∧ 1 ≤ e.2 ∧ s.heap.header (e.1 - 1) = slobUnits (e.2 + 16)
  large : (s.heap.big.map fun b ↦ (b.pages, b.order)).Perm
    (s.large.map fun e ↦ (e.1, orderOf e.2))
  fits : ∀ e ∈ s.large, 256 ∣ e.1 ∧ 4080 ≤ e.2 ∧ e.2 ≤ 4096 * 2 ^ orderOf e.2

/-- An order that is too small comes from a size just above a power of two. -/
theorem le_findOrder {n : ℕ} (h : ∀ k, 1 ≤ k → ¬ (4096 * 2 ^ k < n ∧ n < 4097 * 2 ^ k)) :
    n ≤ 4096 * 2 ^ findOrder n := by
  induction n using Nat.strong_induction_on with
  | _ n ih =>
    rw [findOrder]
    split_ifs with hn
    · have hhalf : ((n : ℤ) / 2) = ((n / 2 : ℕ) : ℤ) := by push_cast; rfl
      have hbound := ih (n / 2) (by omega) fun k hk hbad ↦
        h (k + 1) (by omega) (by rw [pow_succ]; omega)
      rw [hhalf, pow_succ]
      -- the bit that is dropped
      have hone := h (findOrder ((n / 2 : ℕ) : ℤ) + 1) (by omega)
      have hpos := Nat.one_le_two_pow (n := findOrder ((n / 2 : ℕ) : ℤ))
      rw [pow_succ] at hone
      omega
    · rw [pow_zero]
      omega

theorem Fits.le_orderOf {n : ℕ} (h : Fits n) (hn : 4064 ≤ n) : n ≤ 4096 * 2 ^ orderOf n := by
  obtain ⟨-, hlt | ⟨-, hint, hk⟩⟩ := h
  · omega
  · have hbmod : ((n : ℤ)).bmod (2 ^ 32) = n := Int.bmod_eq_of_le (by omega) (by omega)
    rw [orderOf, hbmod]
    exact le_findOrder hk

namespace Inv

variable {s : Sys}

theorem init {others : List (ℕ × ℕ)} {area : FreeArea} (hstock : Stock arena others area []) :
    Inv arena (Sys.init arena others area) where
  ledger := ⟨hstock,
    ⟨List.mem_singleton_self _, fun e he ↦ by rw [List.mem_singleton.mp he]⟩, nofun,
    fun x ↦ by
      change inside (arena, 1) x + 0 ≤ 1
      unfold inside
      split_ifs <;> omega, [], List.Perm.refl _, fun x ↦ rfl⟩
  small := nofun
  large := List.Perm.refl _
  fits := nofun

/-- Different live requests, and the records, share no unit. -/
theorem count_le (I : Inv arena s) (x : ℕ) :
    tally s.heap.free x + tally (s.small.map smallExt) x +
      tally (s.heap.big.map BigBlock.recExt) x + tally (s.heap.big.map BigBlock.pagesExt) x ≤
      1 := by
  have := I.ledger.count_le x
  rwa [tally_append, ← add_assoc] at this

/-- The header of a block in use is not in a block that is cut off. -/
theorem header_ne {others small held bigs : List (ℕ × ℕ)} {h : Heap} {m units : ℕ}
    (L : Ledger arena others h ((m, units) :: (small.map smallExt ++ held)) bigs)
    (hunits : 1 ≤ units) : ∀ e ∈ small, e.1 - 1 ≠ m := by
  intro e he heq
  have hle := L.count_le m
  have hin := inside_le_tally (List.mem_map_of_mem (f := smallExt) he) m
  have hself : inside (smallExt e) m = 1 := by
    rw [← heq]
    exact inside_start (by rw [smallExt, slobUnits]; dsimp only; omega)
  have hnew : inside (m, units) m = 1 := inside_start hunits
  rw [tally_cons, tally_append, hnew] at hle
  omega

/-- A block is cut off for a small request. -/
theorem kmalloc_small (I : Inv arena s) {n : ℕ} (hpos : 1 ≤ n) (hn : n < 4064) :
    ∃ s', s.kmalloc n = .ok s' ∧ Inv arena s' := by
  have hpath : n < pageSize - 16 := by
    rw [pageSize]
    omega
  rcases I.ledger.slobAlloc (by omega : 16 < n + 16) (by rw [pageSize]; omega) with
    ⟨h', hres, hL, hheader, hbig⟩ | ⟨m, h', hres, hL, hheader, hbig⟩
  · refine ⟨{ s with heap := h' }, ?_, ?_⟩
    · simp only [Sys.kmalloc, kmalloc, if_pos hpath, hres]
      rfl
    · rw [← hbig] at hL
      exact ⟨hL, fun e he ↦ by rw [hheader]; exact I.small e he, by rw [hbig]; exact I.large,
        I.fits⟩
  · refine ⟨{ s with heap := h', small := (m + 1, n) :: s.small }, ?_, ?_⟩
    · simp only [Sys.kmalloc, kmalloc, if_pos hpath, hres]
      rfl
    · have hother := header_ne hL (by rw [slobUnits]; omega)
      rw [← hbig] at hL
      refine ⟨hL, List.forall_mem_cons.mpr ⟨⟨Nat.succ_pos _, hpos, ?_⟩, fun e he ↦ ?_⟩,
        by rw [hbig]; exact I.large, I.fits⟩
      · rw [hheader]
        exact Function.update_self ..
      · obtain ⟨h1, h2, h3⟩ := I.small e he
        refine ⟨h1, h2, ?_⟩
        rw [hheader, Function.update_of_ne (hother e he)]
        exact h3

/-- What is left of a large request once it has its record. -/
theorem kmalloc_pages {n m : ℕ} {h h' : Heap} (hpath : ¬ n < pageSize - 16)
    (hres : Kmalloc.slobAlloc 24 h = .ok (some m, h')) :
    Kmalloc.kmalloc n h = (do
      match ← slobGetFreePages (orderOf n) h' with
      | (some p, h) => pure (some p, { h with big := ⟨m, orderOf n, p⟩ :: h.big })
      | (none, h) => do
        let free ← Kmalloc.slobFree (m, slobUnits 24) h.free
        pure (none, { h with free := free })) := by
  rw [Kmalloc.kmalloc, if_neg hpath, hres, Except.ok_bind]

/-- Pages are taken for a large request. -/
theorem kmalloc_large (I : Inv arena s) {n : ℕ} (hn : 4080 ≤ n) (hfits : n ≤ 4096 * 2 ^ orderOf n) :
    ∃ s', s.kmalloc n = .ok s' ∧ Inv arena s' := by
  have hpath : ¬ n < pageSize - 16 := by
    rw [pageSize]
    omega
  -- first a record is allocated, which can fail
  rcases I.ledger.slobAlloc (by decide : 16 < 24) (by rw [pageSize]; omega) with
    ⟨h', hres, hL, hheader, hbig⟩ | ⟨m, h', hres, hL, hheader, hbig⟩
  · refine ⟨{ s with heap := h' }, ?_, ?_⟩
    · simp only [Sys.kmalloc, kmalloc, if_neg hpath, hres]
      rfl
    · rw [← hbig] at hL
      exact ⟨hL, fun e he ↦ by rw [hheader]; exact I.small e he, by rw [hbig]; exact I.large,
        I.fits⟩
  · have hother : ∀ e ∈ s.small, h'.header (e.1 - 1) = s.heap.header (e.1 - 1) := by
      intro e he
      have hne := header_ne hL (by decide) e he
      rw [hheader, Function.update_of_ne hne]
    rcases hL.getFreePages (orderOf n) with
      hget | ⟨p, h₂, hget, halign, -, hheader₂, hbig₂, hL', -⟩
    -- there are no pages, and the record is freed again
    · obtain ⟨free', hput, hL', -⟩ := hL.slobFree
        (by decide : 1 ≤ slobUnits 24)
      refine ⟨{ s with heap := { h' with free := free' } }, ?_, ?_⟩
      · have hrun : Kmalloc.kmalloc n s.heap = .ok (none, { h' with free := free' }) := by
          rw [kmalloc_pages hpath hres, hget, Except.ok_bind]
          dsimp only
          rw [hput]
          rfl
        rw [Sys.kmalloc, hrun]
        rfl
      · rw [← hbig] at hL'
        exact ⟨hL', fun e he ↦ by rw [hother e he]; exact I.small e he,
          by dsimp only; rw [hbig]; exact I.large, I.fits⟩
    · refine ⟨{ s with
        heap := { h₂ with big := ⟨m, orderOf n, p⟩ :: h₂.big }
        large := (p, n) :: s.large }, ?_, ?_⟩
      · have hrun : Kmalloc.kmalloc n s.heap =
            .ok (some p, { h₂ with big := ⟨m, orderOf n, p⟩ :: h₂.big }) := by
          rw [kmalloc_pages hpath hres, hget]
          rfl
        rw [Sys.kmalloc, hrun]
        simp only [Except.bind, bind, if_neg hpath]
        rfl
      · refine ⟨?_, fun e he ↦ ?_, ?_, List.forall_mem_cons.mpr ⟨⟨halign, hn, hfits⟩, I.fits⟩⟩
        · have hperm := (hL'.setBig (⟨m, orderOf n, p⟩ :: h₂.big)).perm List.perm_middle.symm
            (List.Perm.refl _)
          dsimp only
          rw [hbig₂, hbig] at hperm ⊢
          exact hperm
        · dsimp only
          rw [hheader₂, hother e he]
          exact I.small e he
        · dsimp only
          rw [hbig₂, hbig, List.map_cons, List.map_cons]
          exact I.large.cons _

/-- The record that `kfree` finds, and the list without it. -/
theorem find_perm {big : List BigBlock} {p : ℕ} {b : BigBlock}
    (h : big.find? (·.pages == p) = some b) :
    b.pages = p ∧ big.Perm (b :: big.eraseP (·.pages == p)) := by
  obtain ⟨hb, as, bs, rfl, has⟩ := List.find?_eq_some_iff_append.mp h
  refine ⟨by simpa using hb, ?_⟩
  have herase : (b :: bs).eraseP (·.pages == p) = bs := List.eraseP_cons_of_pos hb
  rw [List.eraseP_append_right _ (by simpa using has), herase]
  exact List.perm_middle

/-- Two different members of a list are counted separately. -/
theorem tally_map_of_ne {α : Type} {f : α → ℕ × ℕ} {l : List α} {a b : α} (ha : a ∈ l) (hb : b ∈ l)
    (hne : a ≠ b) (x : ℕ) : inside (f a) x + inside (f b) x ≤ tally (l.map f) x := by
  classical
  have hperm := (List.perm_cons_erase ha).map f
  have hmem : b ∈ l.erase a := (List.mem_erase_of_ne hne.symm).mpr hb
  rw [List.map_cons] at hperm
  rw [tally_of_perm hperm]
  exact Nat.add_le_add_left (inside_le_tally (List.mem_map_of_mem hmem) x) _

/-- Where no number is counted twice, the extents of a list share none. -/
theorem pairwise_of_tally {es : List (ℕ × ℕ)} (h : ∀ x, tally es x ≤ 1) :
    es.Pairwise fun e e' ↦ ∀ x, inside e x + inside e' x ≤ 1 := by
  induction es with
  | nil => exact List.Pairwise.nil
  | cons e es ih =>
    refine List.pairwise_cons.mpr ⟨fun e' he' x ↦ ?_, ih fun x ↦ ?_⟩
    · have hle := h x
      have hin := inside_le_tally he' x
      rw [tally_cons] at hle
      omega
    · have hle := h x
      rw [tally_cons] at hle
      omega

/-- A small block is freed: no pages start at it. -/
theorem kfree_small (I : Inv arena s) {e : ℕ × ℕ} (he : e ∈ s.small) :
    ∃ s', s.kfree e = .ok s' ∧ Inv arena s' := by
  obtain ⟨hstart, hbytes, hheader⟩ := I.small e he
  have hunits : 2 ≤ slobUnits (e.2 + 16) := by
    rw [slobUnits]
    omega
  have hnone : (if 256 ∣ e.1 then s.heap.big.find? (·.pages == e.1) else none) = none := by
    split_ifs
    · refine List.find?_eq_none.mpr fun b hb heq ↦ ?_
      have hpages : b.pages = e.1 := by simpa using heq
      have hle := I.count_le e.1
      have hsmall := inside_le_tally (List.mem_map_of_mem (f := smallExt) he) e.1
      have hbig := inside_le_tally (List.mem_map_of_mem (f := BigBlock.pagesExt) hb) e.1
      rw [inside_of_mem (e := smallExt e) (by rw [smallExt]; dsimp only; omega)] at hsmall
      have hself : inside b.pagesExt e.1 = 1 := by
        rw [← hpages]
        exact inside_start b.pagesExt_pos
      omega
    · rfl
  have hperm : (s.small.map smallExt ++ s.heap.big.map BigBlock.recExt).Perm
      (smallExt e :: ((s.small.erase e).map smallExt ++ s.heap.big.map BigBlock.recExt)) :=
    (((List.perm_cons_erase he).map smallExt).append_right _)
  obtain ⟨free', hput, hL, -⟩ := (I.ledger.perm hperm (List.Perm.refl _)).slobFree
    (by rw [smallExt]; dsimp only; omega)
  refine ⟨{ s with heap := { s.heap with free := free' }, small := s.small.erase e }, ?_, hL,
    fun e' he' ↦ I.small e' (List.mem_of_mem_erase he'), I.large, I.fits⟩
  have hblock : (e.1 - 1, s.heap.header (e.1 - 1)) = smallExt e := by rw [smallExt, hheader]
  simp only [Sys.kfree, kfree, hnone, hblock, hput, Except.bind, bind, pure, Except.pure, if_pos he]

/-- Pages are freed: their record is found. -/
theorem kfree_large (I : Inv arena s) {e : ℕ × ℕ} (hsmall : e ∉ s.small) (he : e ∈ s.large)
    (htidy : s.Tidy e) : ∃ s', s.kfree e = .ok s' ∧ Inv arena s' := by
  obtain ⟨b₀, hb₀, hpair⟩ := List.mem_map.mp (I.large.symm.mem_iff.mp
    (List.mem_map_of_mem (f := fun e ↦ (e.1, orderOf e.2)) he))
  have hpages₀ : b₀.pages = e.1 := congrArg Prod.fst hpair
  have horder₀ : b₀.order = orderOf e.2 := congrArg Prod.snd hpair
  cases hfind : s.heap.big.find? (·.pages == e.1) with
  | none => exact absurd (by simpa using hpages₀) (List.find?_eq_none.mp hfind b₀ hb₀)
  | some b =>
    obtain ⟨hpages, hperm⟩ := find_perm hfind
    have hb : b ∈ s.heap.big := hperm.mem_iff.mpr List.mem_cons_self
    -- there is no other record with these pages
    have hsame : b = b₀ := by
      by_contra hne
      have hle := I.count_le e.1
      have htwo := tally_map_of_ne (f := BigBlock.pagesExt) hb hb₀ hne e.1
      have h1 : inside b.pagesExt e.1 = 1 := by
        rw [← hpages]
        exact inside_start b.pagesExt_pos
      have h2 : inside b₀.pagesExt e.1 = 1 := by
        rw [← hpages₀]
        exact inside_start b₀.pagesExt_pos
      omega
    have horder : b.order = orderOf e.2 := by rw [hsame, horder₀]
    have hheld : (s.small.map smallExt ++ s.heap.big.map BigBlock.recExt).Perm
        (b.recExt :: (s.small.map smallExt ++
          (s.heap.big.eraseP (·.pages == e.1)).map BigBlock.recExt)) :=
      ((hperm.map BigBlock.recExt).append_left _).trans List.perm_middle
    have hbigs := hperm.map BigBlock.pagesExt
    have hext : b.pagesExt = (e.1, orderUnits (orderOf e.2)) := by
      rw [BigBlock.pagesExt, hpages, horder]
    have hL := I.ledger.perm hheld hbigs
    rw [List.map_cons, hext] at hL
    obtain ⟨h', hgive, hfree, hheader, hbig, hL⟩ := hL.freePages (I.fits e he).1 (htidy hsmall)
    obtain ⟨free', hput, hL, -⟩ := hL.slobFree (by decide : 1 ≤ slobUnits 24)
    have hL' := hL.setBig (h'.big.eraseP (·.pages == e.1))
    refine ⟨⟨{ h' with free := free', big := h'.big.eraseP (·.pages == e.1) }, s.small,
      s.large.erase e, s.others⟩, ?_, ?_, fun e' he' ↦ ?_, ?_,
      fun e' he' ↦ I.fits e' (List.mem_of_mem_erase he')⟩
    · have hrec : (b.addr, slobUnits 24) = b.recExt := rfl
      simp only [Sys.kfree, kfree, if_pos (I.fits e he).1, hfind, horder, hgive, hrec, hput,
        Except.bind, bind, pure, Except.pure, if_neg hsmall]
    · dsimp only
      rw [hbig] at hL' ⊢
      exact hL'
    · dsimp only
      rw [hheader]
      exact I.small e' he'
    · have hleft := hperm.map fun b ↦ (b.pages, b.order)
      have hright := (List.perm_cons_erase he).map fun e ↦ (e.1, orderOf e.2)
      rw [List.map_cons, hpages, horder] at hleft
      dsimp only
      rw [hbig]
      exact (hleft.symm.trans (I.large.trans hright)).cons_inv

/-- Requests whose bytes lie in extents that share no unit. -/
theorem separate_of_tally {f : ℕ × ℕ → ℕ × ℕ} {l : List (ℕ × ℕ)} (h : ∀ x, tally (l.map f) x ≤ 1)
    (hin : ∀ e ∈ l, ∀ x, Sys.InBytes e x → inside (f e) (x / 16) = 1) :
    l.Pairwise fun e e' ↦ ∀ x, ¬ (Sys.InBytes e x ∧ Sys.InBytes e' x) := by
  refine (List.pairwise_map.mp (pairwise_of_tally h)).imp_of_mem ?_
  intro e e' he he' hle x hx
  have := hle (x / 16)
  rw [hin e he x hx.1, hin e' he' x hx.2] at this
  omega

theorem kmalloc (I : Inv arena s) {n : ℕ} (hn : Fits n) :
    ∃ s', s.kmalloc n = .ok s' ∧ Inv arena s' := by
  rcases lt_or_ge n 4064 with hlt | hge
  · exact I.kmalloc_small hn.1 hlt
  · exact I.kmalloc_large (hn.2.resolve_left hge.not_gt).1 (hn.le_orderOf hge)

theorem kfree (I : Inv arena s) {e : ℕ × ℕ} (he : e ∈ s.small ++ s.large) (htidy : s.Tidy e) :
    ∃ s', s.kfree e = .ok s' ∧ Inv arena s' := by
  by_cases hsmall : e ∈ s.small
  · exact I.kfree_small hsmall
  · exact I.kfree_large hsmall ((List.mem_append.mp he).resolve_left hsmall) htidy

/-- What others do with the pages does not touch the list. -/
theorem setStock (I : Inv arena s) {others : List (ℕ × ℕ)} {area : FreeArea}
    (hstock : Stock arena others area s.heap.granted) :
    Inv arena { s with heap := { s.heap with area := area }, others := others } :=
  ⟨⟨hstock, I.ledger.linked, I.ledger.above, I.ledger.disjoint, I.ledger.pages⟩, I.small, I.large,
    I.fits⟩

theorem takePages (I : Inv arena s) {n : ℕ} (hn : 0 < n) :
    ∃ s', s.takePages n = .ok s' ∧ Inv arena s' := by
  rcases I.ledger.stock.alloc hn with hrun | ⟨page, area, hrun, -, -, -, hstock⟩
  · refine ⟨s, ?_, I⟩
    rw [Sys.takePages, hrun]
  · refine ⟨_, ?_, I.setStock hstock⟩
    rw [Sys.takePages, hrun]

theorem givePages (I : Inv arena s) {o : ℕ × ℕ} (ho : o ∈ s.others)
    (htidy : PmmCall.Tidy false s.heap.area (.freePages o.1 o.2)) :
    ∃ s', s.givePages o = .ok s' ∧ Inv arena s' := by
  obtain ⟨area, hrun, -, hstock⟩ := I.ledger.stock.free
    (List.mem_append_right _ (List.mem_map_of_mem ho)) htidy
  refine ⟨_, ?_, I.setStock (hstock ho)⟩
  rw [Sys.givePages, hrun]

/-- What the invariant says about the bytes of the requests. -/
theorem honoured (I : Inv arena s) : s.Honoured := by
  have hlarge : (s.large.map largeExt).Perm (s.heap.big.map BigBlock.pagesExt) := by
    have h := I.large.symm.map fun q : ℕ × ℕ ↦ (q.1, orderUnits q.2)
    rwa [List.map_map, List.map_map] at h
  have hcount : ∀ x, tally s.heap.free x + tally (s.small.map smallExt) x +
      tally (s.heap.big.map BigBlock.recExt) x + tally (s.large.map largeExt) x ≤ 1 := fun x ↦ by
    rw [tally_perm hlarge]
    exact I.count_le x
  -- the bytes of a request lie behind the header of its block, or in its pages
  have hsmall : ∀ e ∈ s.small, ∀ x, Sys.InBytes e x →
      e.1 ≤ x / 16 ∧ inside (smallExt e) (x / 16) = 1 := by
    intro e he x hx
    obtain ⟨h1, h2, -⟩ := I.small e he
    obtain ⟨hlow, hhigh⟩ := hx
    have hin : e.1 ≤ x / 16 := by omega
    refine ⟨hin, inside_of_mem ?_⟩
    rw [smallExt, slobUnits]
    dsimp only
    omega
  have hpages : ∀ e ∈ s.large, ∀ x, Sys.InBytes e x → inside (largeExt e) (x / 16) = 1 := by
    intro e he x hx
    obtain ⟨-, -, hfits⟩ := I.fits e he
    obtain ⟨hlow, hhigh⟩ := hx
    refine inside_of_mem ?_
    rw [largeExt, orderUnits]
    dsimp only
    omega
  have htally : ∀ e ∈ s.small, ∀ x, Sys.InBytes e x →
      1 ≤ tally (s.small.map smallExt) (x / 16) := by
    intro e he x hx
    have := inside_le_tally (List.mem_map_of_mem (f := smallExt) he) (x / 16)
    rwa [(hsmall e he x hx).2] at this
  have htally' : ∀ e ∈ s.large, ∀ x, Sys.InBytes e x →
      1 ≤ tally (s.large.map largeExt) (x / 16) := by
    intro e he x hx
    have := inside_le_tally (List.mem_map_of_mem (f := largeExt) he) (x / 16)
    rwa [hpages e he x hx] at this
  have howned : ∀ e ∈ s.small ++ s.large, ∀ x, Sys.InBytes e x →
      ∃ g ∈ s.heap.granted, g.1 ≤ x / 16 ∧ x / 16 < g.1 + g.2 := by
    intro e he x hx
    refine exists_of_tally_pos ?_
    rcases List.mem_append.mp he with h | h
    · refine I.ledger.held_granted ?_
      rw [tally_append]
      exact le_add_right (htally e h x hx)
    · obtain ⟨sp, hsp, -⟩ := I.ledger.pages
      rw [tally_perm hsp, tally_append, ← tally_perm hlarge]
      exact le_add_left (htally' e h x hx)
  refine ⟨howned, fun e he x hx o ho ↦ ?_,
    List.pairwise_append.mpr ⟨?_, ?_, fun e he e' he' x hx ↦ ?_⟩, fun e he x hx hmeta ↦ ?_⟩
  · obtain ⟨g, hg, hin⟩ := howned e he x hx
    have hapart := I.ledger.stock.apart hg ho
    omega
  · refine separate_of_tally (f := smallExt) (fun x ↦ ?_) fun e he x hx ↦ (hsmall e he x hx).2
    have := hcount x
    omega
  · refine separate_of_tally (f := largeExt) (fun x ↦ ?_) hpages
    have := hcount x
    omega
  · have h1 := htally e he x hx.1
    have h2 := htally' e' he' x hx.2
    have := hcount (x / 16)
    omega
  · have hle := hcount (x / 16)
    have hmine : 1 ≤ tally (s.small.map smallExt) (x / 16) + tally (s.large.map largeExt)
        (x / 16) :=
      (List.mem_append.mp he).elim (fun h ↦ le_add_right (htally e h x hx))
        fun h ↦ le_add_left (htally' e h x hx)
    rcases hmeta with ⟨b, hb, hin⟩ | ⟨b, hb, hin⟩ | ⟨e', he', hin⟩
    · have := inside_le_tally hb (x / 16)
      rw [inside_of_mem hin] at this
      omega
    · have := inside_le_tally (List.mem_map_of_mem (f := BigBlock.recExt) hb) (x / 16)
      rw [inside_of_mem (e := b.recExt) hin] at this
      omega
    · obtain ⟨hpos', -, -⟩ := I.small e' he'
      have hself : inside (smallExt e') (x / 16) = 1 := by
        refine inside_of_mem ?_
        rw [smallExt, slobUnits]
        dsimp only
        omega
      rcases List.mem_append.mp he with h | h
      · have hbehind := (hsmall e h x hx).1
        have hne : e ≠ e' := by
          rintro rfl
          omega
        have htwo := tally_map_of_ne (f := smallExt) h he' hne (x / 16)
        rw [(hsmall e h x hx).2, hself] at htwo
        omega
      · have h1 := inside_le_tally (List.mem_map_of_mem (f := smallExt) he') (x / 16)
        have h2 := htally' e h x hx
        omega

end Inv

/-- One step keeps the invariant, and none fails. -/
theorem Reachable.inv {s : Sys} (hs : Reachable arena s) : Inv arena s := by
  induction hs with
  | init hrun harena =>
    obtain ⟨-, ⟨xs, h⟩, -⟩ := Pmm.manager_run Pmm.searches_default hrun
    exact Inv.init ⟨_, xs, h, List.Perm.refl _, harena⟩
  | kmalloc n _ hn h ih =>
    obtain ⟨s', hres, I⟩ := ih.kmalloc hn
    rw [hres] at h
    cases h
    exact I
  | kfree e _ he htidy h ih =>
    obtain ⟨s', hres, I⟩ := ih.kfree he htidy
    rw [hres] at h
    cases h
    exact I
  | takePages n _ hn h ih =>
    obtain ⟨s', hres, I⟩ := ih.takePages hn
    rw [hres] at h
    cases h
    exact I
  | givePages o _ ho htidy h ih =>
    obtain ⟨s', hres, I⟩ := ih.givePages ho htidy
    rw [hres] at h
    cases h
    exact I

/-- The arena at unit 16, and four free pages from page 2 on. -/
def fourPages : Option Sys :=
  (defaultPmmManager.follow (PmmCall.Tidy false) [.initMemmap 2 4] (.empty, .boot 6)).map
    fun st ↦ Sys.init 16 st.1.live st.2

theorem fourPages_reachable {s : Sys} (h : fourPages = some s) : Reachable 16 s := by
  obtain ⟨⟨c, area⟩, hfollow, rfl⟩ := Option.map_eq_some_iff.mp h
  have hmanaged : ∀ st ∈ defaultPmmManager.follow (PmmCall.Tidy false) [.initMemmap 2 4]
      (.empty, .boot 6), ∀ p ∈ st.1.managed, 16 + 1 < 256 * p := by decide +kernel
  exact .init (PmmManager.run_of_follow .nil hfollow) (hmanaged _ hfollow)

theorem toOption_eq_some {α : Type} {x : Except Fault α} {a : α} (h : x.toOption = some a) :
    x = .ok a := by
  cases x with
  | error => cases h
  | ok b => exact congrArg _ (Option.some.inj h)

end Ucore.Kmalloc
