import Ucore.Sfs.BlockMapSpec
import Ucore.Lib.Ownership

/-!
# Who owns a block

Every block of the file system that is in use belongs to exactly one of: the superblock, the
freemap, an inode, the indirect block of an inode, a logical block of an inode. The inodes the file
system has are a finite set `live` of inode numbers, which no variable of the kernel holds; an inode
that is not in memory is the one its block decodes to.

## The invariant

`SfsFs.own` is the map from owners to blocks, and `SfsFs.Owned` says that it is exact in the sense
of `Lib.Ownership`: a block below `super.blocks` is free, or it has one owner. From this the block
map of every inode is in order (`Owned.mapped`), which is what the routines on block maps ask for.

## How it is kept

What a routine does to inode `k` leaves the others as they were (`SameOthers`), so their part of
`own` is the same and only the owners that belong to `k` have to be looked at. An append gives a
free block to one owner of `k`, a truncation takes the block of one owner away, and a failed append
changes no owner. A store to a block that `k` owns changes no map, unless it is to the indirect
block.
-/

namespace Ucore

open Bytes Prog

/-- What a block can belong to. -/
inductive Owner
  | super
  | freemap (j : ℕ)
  | inode (k : ℕ)
  | indirect (k : ℕ)
  | data (k i : ℕ)
  deriving DecidableEq

/-- The inode an owner is a part of. -/
def Owner.inode? : Owner → Option ℕ
  | .super => none
  | .freemap _ => none
  | .inode k => some k
  | .indirect k => some k
  | .data k _ => some k

theorem Owner.inode?_ne {o : Owner} {k : ℕ} (h₁ : o ≠ .inode k) (h₂ : o ≠ .indirect k)
    (h₃ : ∀ i, o ≠ .data k i) : o.inode? ≠ some k := by
  cases o with
  | super => simp [inode?]
  | freemap j => simp [inode?]
  | inode j => simpa [inode?] using h₁
  | indirect j => simpa [inode?] using h₂
  | data j i => simpa [inode?] using h₃ i

namespace SfsFs

/-- The on-disk inode with number `k`: the one in memory if it is there. -/
def dinOf (s : SfsFs) (k : ℕ) : SfsDiskInode :=
  match s.inodes k with
  | some sin => sin.din
  | none => SfsDiskInode.ofBytes (s.dev.blk k)

/-- The block an owner holds. -/
def own (s : SfsFs) (live : Finset ℕ) : Owner → Option ℕ
  | .super => some sfsBlknSuper
  | .freemap j => if j < sfsFreemapBlocks s.super then some (sfsBlknFreemap + j) else none
  | .inode k => if k ∈ live then some k else none
  | .indirect k =>
    if k ∈ live ∧ (s.dinOf k).indirect ≠ 0 then some (s.dinOf k).indirect else none
  | .data k i =>
    if k ∈ live ∧ i < (s.dinOf k).blocks then some (s.bmap (s.dinOf k) i) else none

/-- The ownership invariant, with `live` the inodes the file system has. -/
structure Owned (s : SfsFs) (live : Finset ℕ) : Prop where
  ok : s.Ok
  /-- A block below `super.blocks` is free or has exactly one owner. -/
  exact : Ownership.Exact {b | b < s.super.blocks} (fun b ↦ s.freemap.isFree b = true) (s.own live)
  /-- Nothing is mapped at or beyond `din->blocks`. -/
  null : ∀ k ∈ live, ∀ i, (s.dinOf k).blocks ≤ i → s.bmap (s.dinOf k) i = 0
  /-- An inode in memory is one the file system has. -/
  cached : ∀ k sin, s.inodes k = some sin → k ∈ live
  /-- There is a root directory. -/
  root : sfsBlknRoot ∈ live ∧ (s.dinOf sfsBlknRoot).nlinks ≠ 0

section Own

variable {s t : SfsFs} {live : Finset ℕ} {k : ℕ} {sin : SfsInode}

theorem dinOf_of_cached (h : s.inodes k = some sin) : s.dinOf k = sin.din := by
  rw [dinOf, h]

theorem dinOf_of_none (h : s.inodes k = none) : s.dinOf k = SfsDiskInode.ofBytes (s.dev.blk k) := by
  rw [dinOf, h]

theorem own_inode (hk : k ∈ live) : s.own live (.inode k) = some k := if_pos hk

theorem own_indirect (hk : k ∈ live) (hne : (s.dinOf k).indirect ≠ 0) :
    s.own live (.indirect k) = some (s.dinOf k).indirect := if_pos ⟨hk, hne⟩

theorem own_data (hk : k ∈ live) {i : ℕ} (hi : i < (s.dinOf k).blocks) :
    s.own live (.data k i) = some (s.bmap (s.dinOf k) i) := if_pos ⟨hk, hi⟩

theorem own_data_eq_none {i : ℕ} (hi : (s.dinOf k).blocks ≤ i) : s.own live (.data k i) = none :=
  if_neg fun hc ↦ absurd hc.2 (by omega)

theorem own_indirect_eq_none (h0 : (s.dinOf k).indirect = 0) : s.own live (.indirect k) = none :=
  if_neg fun hc ↦ hc.2 h0

theorem Owned.used_of_own (h : s.Owned live) {o : Owner} (ho : o ≠ .super) {c : ℕ}
    (hc : s.own live o = some c) : s.Used c := by
  have hmem := h.exact.held hc
  refine ⟨(h.exact.ne rfl hc ho.symm).symm, hmem.1, ?_⟩
  simpa using hmem.2

theorem Owned.isFree_zero (h : s.Owned live) : s.freemap.isFree 0 = false := by
  have hsuper : s.own live .super = some 0 := rfl
  simpa using (h.exact.held hsuper).2

/-- A live inode has its block map in order. -/
theorem Owned.mapped (h : s.Owned live) (hk : k ∈ live) : s.Mapped (s.dinOf k) where
  used i hi := h.used_of_own (by simp) (own_data hk hi)
  null := h.null k hk
  indirect hne := h.used_of_own (by simp) (own_indirect hk hne)
  inj i hi j hj hij := by
    have hown := own_data hk hj
    rw [← hij] at hown
    exact (Owner.data.inj (h.exact.inj (own_data hk hi) hown)).2
  ne_indirect i hi hc := by
    by_cases h0 : (s.dinOf k).indirect = 0
    · exact (h.used_of_own (by simp) (own_data hk hi)).1 (hc.trans h0)
    · exact h.exact.ne (own_data hk hi) (own_indirect hk h0) (by simp) hc

theorem Owned.mapped_of_cached (h : s.Owned live) (hk : s.inodes k = some sin) :
    s.Mapped sin.din := by
  have := h.mapped (h.cached k sin hk)
  rwa [dinOf_of_cached hk] at this

/-! ## States that agree on what an inode owns -/

/-- Inode `k` has the same map in `t` as in `s`. -/
structure SameMap (s t : SfsFs) (k : ℕ) : Prop where
  blocks : (t.dinOf k).blocks = (s.dinOf k).blocks
  indirect : (t.dinOf k).indirect = (s.dinOf k).indirect
  bmap : ∀ i, t.bmap (t.dinOf k) i = s.bmap (s.dinOf k) i
  nlinks : (t.dinOf k).nlinks = (s.dinOf k).nlinks

theorem SameMap.own_indirect (h : s.SameMap t k) :
    t.own live (.indirect k) = s.own live (.indirect k) := by
  rw [own, own, h.indirect]

theorem SameMap.own_data (h : s.SameMap t k) (i : ℕ) :
    t.own live (.data k i) = s.own live (.data k i) := by
  rw [own, own, h.blocks, h.bmap]

/-- If all inodes have the same map then all owners hold the same. -/
theorem own_eq_of_sameMap (hblocks : t.super.blocks = s.super.blocks)
    (h : ∀ k ∈ live, s.SameMap t k) : t.own live = s.own live := by
  funext o
  cases o with
  | super => rfl
  | freemap j => rw [SfsFs.own, SfsFs.own, sfsFreemapBlocks, sfsFreemapBlocks, hblocks]
  | inode j => rfl
  | indirect j =>
    by_cases hj : j ∈ live
    · exact (h j hj).own_indirect
    · rw [SfsFs.own, SfsFs.own, if_neg fun hc ↦ hj hc.1, if_neg fun hc ↦ hj hc.1]
  | data j i =>
    by_cases hj : j ∈ live
    · exact (h j hj).own_data i
    · rw [SfsFs.own, SfsFs.own, if_neg fun hc ↦ hj hc.1, if_neg fun hc ↦ hj hc.1]

/-- The contents of what others than inode `k` own are the same, and so are the other inodes. -/
structure SameOthers (s t : SfsFs) (live : Finset ℕ) (k : ℕ) : Prop where
  blk : ∀ o c, s.own live o = some c → o.inode? ≠ some k → t.dev.blk c = s.dev.blk c
  inodes : ∀ j ≠ k, t.inodes j = s.inodes j

theorem SameOthers.dinOf (h : s.SameOthers t live k) {j : ℕ} (hj : j ∈ live) (hjk : j ≠ k) :
    t.dinOf j = s.dinOf j := by
  rw [SfsFs.dinOf, SfsFs.dinOf, h.inodes j hjk]
  cases s.inodes j with
  | some sin => rfl
  | none => dsimp only; rw [h.blk (.inode j) j (own_inode hj) (by simpa [Owner.inode?] using hjk)]

theorem SameOthers.sameMap (h : s.SameOthers t live k) {j : ℕ} (hj : j ∈ live) (hjk : j ≠ k) :
    s.SameMap t j where
  blocks := by rw [h.dinOf hj hjk]
  indirect := by rw [h.dinOf hj hjk]
  bmap i := by
    rw [h.dinOf hj hjk]
    exact bmap_congr rfl rfl fun hne ↦
      h.blk (.indirect j) _ (SfsFs.own_indirect hj hne) (by simpa [Owner.inode?] using hjk)
  nlinks := by rw [h.dinOf hj hjk]

/-- Owners that are not a part of inode `k` hold what they held. -/
theorem SameOthers.own (h : s.SameOthers t live k) (hblocks : t.super.blocks = s.super.blocks)
    {o : Owner} (ho : o.inode? ≠ some k) : t.own live o = s.own live o := by
  cases o with
  | super => rfl
  | freemap j => rw [SfsFs.own, SfsFs.own, sfsFreemapBlocks, sfsFreemapBlocks, hblocks]
  | inode j => rfl
  | indirect j =>
    by_cases hj : j ∈ live
    · exact (h.sameMap hj fun hc ↦ ho (hc ▸ rfl)).own_indirect
    · rw [SfsFs.own, SfsFs.own, if_neg fun hc ↦ hj hc.1, if_neg fun hc ↦ hj hc.1]
  | data j i =>
    by_cases hj : j ∈ live
    · exact (h.sameMap hj fun hc ↦ ho (hc ▸ rfl)).own_data i
    · rw [SfsFs.own, SfsFs.own, if_neg fun hc ↦ hj hc.1, if_neg fun hc ↦ hj hc.1]

/-- The parts of the invariant that concern the inodes, when only inode `k` changed. -/
theorem SameOthers.inodes_ok (h : s.SameOthers t live k) (ho : s.Owned live) {sin' : SfsInode}
    (hk : k ∈ live) (hk' : t.inodes k = some sin') (hm : t.Mapped sin'.din)
    (hlinks : sin'.din.nlinks = (s.dinOf k).nlinks) :
    (∀ j ∈ live, ∀ i, (t.dinOf j).blocks ≤ i → t.bmap (t.dinOf j) i = 0) ∧
      (∀ j sin, t.inodes j = some sin → j ∈ live) ∧
      (sfsBlknRoot ∈ live ∧ (t.dinOf sfsBlknRoot).nlinks ≠ 0) := by
  refine ⟨fun j hj i hi ↦ ?_, fun j sin hj ↦ ?_, ho.root.1, ?_⟩
  · rcases eq_or_ne j k with rfl | hjk
    · rw [dinOf_of_cached hk'] at hi ⊢
      exact hm.null i hi
    · have hsame := h.sameMap hj hjk
      rw [hsame.bmap]
      exact ho.null j hj i (hsame.blocks ▸ hi)
  · rcases eq_or_ne j k with rfl | hjk
    · exact hk
    · rw [h.inodes j hjk] at hj
      exact ho.cached j sin hj
  · rcases eq_or_ne sfsBlknRoot k with hroot | hjk
    · rw [hroot, dinOf_of_cached hk', hlinks, ← hroot]
      exact ho.root.2
    · rw [(h.sameMap ho.root.1 hjk).nlinks]
      exact ho.root.2

/-- The invariant survives any change that leaves the freemap and the maps of all inodes as they
were. -/
theorem Owned.of_sameMaps (ho : s.Owned live) (ht : t.Ok)
    (hblocks : t.super.blocks = s.super.blocks)
    (hfree : ∀ c, t.freemap.isFree c = true ↔ s.freemap.isFree c = true)
    (hmaps : ∀ j ∈ live, s.SameMap t j) (hcached : ∀ j sin, t.inodes j = some sin → j ∈ live) :
    t.Owned live := by
  refine ⟨ht, ?_, fun j hj i hi ↦ ?_, hcached, ho.root.1, ?_⟩
  · rw [hblocks, own_eq_of_sameMap hblocks hmaps]
    exact ho.exact.congr hfree
  · rw [(hmaps j hj).bmap]
    exact ho.null j hj i ((hmaps j hj).blocks ▸ hi)
  · rw [(hmaps _ ho.root.1).nlinks]
    exact ho.root.2

/-- The invariant survives any change that leaves the freemap, the maps of all inodes and the
contents of what inodes other than `k` own as they were. -/
theorem Owned.of_sameMap (ho : s.Owned live) (ht : t.Ok) (hblocks : t.super.blocks = s.super.blocks)
    (hfree : ∀ c, t.freemap.isFree c = true ↔ s.freemap.isFree c = true)
    (hothers : s.SameOthers t live k) (hmap : s.SameMap t k) (hk : k ∈ live) : t.Owned live := by
  refine ho.of_sameMaps ht hblocks hfree (fun j hj ↦ ?_) fun j sin hj ↦ ?_
  · rcases eq_or_ne j k with rfl | hjk
    · exact hmap
    · exact hothers.sameMap hj hjk
  · rcases eq_or_ne j k with rfl | hjk
    · exact hk
    · rw [hothers.inodes j hjk] at hj
      exact ho.cached j sin hj

/-- Changing only the size, the flag and the counters of an inode in memory. -/
theorem Owned.setInode (ho : s.Owned live) (hk : s.inodes k = some sin) {sin' : SfsInode}
    (hdin : sin'.din = { sin.din with size := sin'.din.size }) :
    (s.setInode k sin').Owned live := by
  have hcached : (s.setInode k sin').inodes k = some sin' := setInode_inodes_self ..
  refine ho.of_sameMap (k := k) (ho.ok.setInode k sin') rfl (fun _ ↦ Iff.rfl)
    ⟨fun _ _ _ _ ↦ rfl, fun j hj ↦ s.setInode_inodes_of_ne k sin' hj⟩ ?_ (ho.cached k sin hk)
  refine ⟨?_, ?_, fun i ↦ ?_, ?_⟩
  · rw [dinOf_of_cached hcached, dinOf_of_cached hk, hdin]
  · rw [dinOf_of_cached hcached, dinOf_of_cached hk, hdin]
  · rw [dinOf_of_cached hcached, dinOf_of_cached hk]
    exact bmap_congr (by rw [hdin]) (by rw [hdin]) fun _ ↦ rfl
  · rw [dinOf_of_cached hcached, dinOf_of_cached hk, hdin]

/-- Storing to the block of an inode that is in memory, or to one of its data blocks. -/
theorem Owned.setBlk (ho : s.Owned live) (hk : s.inodes k = some sin) {o : Owner} {n : ℕ}
    (hn : s.own live o = some n) (hinode : o.inode? = some k) (hind : o ≠ .indirect k) (c : Bytes) :
    (s.setBlk n c).Owned live := by
  have hlive := ho.cached k sin hk
  have hcached : (s.setBlk n c).inodes k = some sin := hk
  refine ho.of_sameMap (k := k) (ho.ok.setBlk n c) rfl (fun _ ↦ Iff.rfl)
    ⟨fun o' m hm ho' ↦ ?_, fun j _ ↦ rfl⟩ ?_ hlive
  · refine s.setBlk_blk_of_ne n c (ho.exact.ne hm hn ?_)
    rintro rfl
    exact ho' hinode
  · refine ⟨?_, ?_, fun i ↦ ?_, ?_⟩
    · rw [dinOf_of_cached hcached, dinOf_of_cached hk]
    · rw [dinOf_of_cached hcached, dinOf_of_cached hk]
    · rw [dinOf_of_cached hcached, dinOf_of_cached hk]
      refine bmap_congr rfl rfl fun hne ↦ s.setBlk_blk_of_ne n c ?_
      have hown := own_indirect hlive ((dinOf_of_cached hk).symm ▸ hne)
      rw [dinOf_of_cached hk] at hown
      exact ho.exact.ne hown hn hind.symm
    · rw [dinOf_of_cached hcached, dinOf_of_cached hk]

end Own

/-! ## Append -/

section Append

variable {s s' : SfsFs} {live : Finset ℕ} {k b : ℕ} {sin sin' : SfsInode}

theorem Appended.sameOthers (h : s.Appended k sin b s' sin') (ho : s.Owned live)
    (hk : s.inodes k = some sin) : s.SameOthers s' live k where
  blk o c hc hne := by
    refine h.blk c (ho.exact.ne_of_free hc h.taken.1) ?_
    rcases h.indirect with ⟨hind, -⟩ | ⟨-, -, -, hfree, -⟩
    · rw [hind]
      by_cases h0 : sin.din.indirect = 0
      · by_cases hc0 : c = 0
        · exact Or.inr hc0
        · exact Or.inl fun h ↦ hc0 (h.trans h0)
      · have hown := own_indirect (ho.cached k sin hk) ((dinOf_of_cached hk).symm ▸ h0)
        rw [dinOf_of_cached hk] at hown
        exact Or.inl (ho.exact.ne hc hown fun h ↦ hne (h ▸ rfl))
    · exact Or.inl (ho.exact.ne_of_free hc hfree)
  inodes j hj := by rw [h.inodes, Function.update_of_ne hj]

/-- After an append the inode owns one more logical block, and an indirect block if it got one. -/
theorem Appended.own_eq (h : s.Appended k sin b s' sin') (ho : s.Owned live)
    (hk : s.inodes k = some sin) :
    s'.own live = Function.update
      (if sin'.din.indirect = sin.din.indirect then s.own live
        else Function.update (s.own live) (.indirect k) (some sin'.din.indirect))
      (.data k sin.din.blocks) (some b) := by
  have hlive := ho.cached k sin hk
  have hothers := h.sameOthers ho hk
  have hblocks : s'.super.blocks = s.super.blocks := by rw [h.super]
  have hdin := dinOf_of_cached hk
  have hdin' := dinOf_of_cached h.cached
  funext o
  by_cases hdata : ∃ i, o = .data k i
  · obtain ⟨i, rfl⟩ := hdata
    rcases eq_or_ne i sin.din.blocks with rfl | hi
    · rw [Function.update_self, own_data hlive (by rw [hdin', h.blocks]; omega), hdin', h.bmap_last]
    · have hrest : s'.own live (.data k i) = s.own live (.data k i) := by
        rw [own, own, hdin, hdin', h.blocks, h.bmap_of_ne i hi]
        exact if_congr (and_congr_right fun _ ↦ by omega) rfl rfl
      rw [Function.update_of_ne (by simpa using hi), hrest]
      split
      · rfl
      · rw [Function.update_of_ne (by simp)]
  · have hne : ∀ i, o ≠ .data k i := fun i hc ↦ hdata ⟨i, hc⟩
    rw [Function.update_of_ne (hne _)]
    by_cases hind : o = .indirect k
    · subst hind
      split
      · next hsame => rw [own, own, hdin, hdin', hsame]
      · next hnew =>
        have hnz : sin'.din.indirect ≠ 0 := by
          rcases h.indirect with ⟨hsame, -⟩ | ⟨-, -, -, -, hnz, -⟩
          · exact absurd hsame hnew
          · exact hnz
        rw [Function.update_self, own_indirect hlive (hdin' ▸ hnz), hdin']
    · have hsame : s'.own live o = s.own live o := by
        by_cases hinode : o = .inode k
        · rw [hinode]
          rfl
        · exact hothers.own hblocks (Owner.inode?_ne hinode hind hne)
      rw [hsame]
      split
      · rfl
      · rw [Function.update_of_ne hind]

/-- An append keeps the invariant. -/
theorem Appended.owned (h : s.Appended k sin b s' sin') (ho : s.Owned live)
    (hk : s.inodes k = some sin) : s'.Owned live := by
  have hlive := ho.cached k sin hk
  have hm := ho.mapped_of_cached hk
  have hdin := dinOf_of_cached hk
  obtain ⟨hnull, hcached, hroot⟩ := (h.sameOthers ho hk).inodes_ok ho hlive h.cached (h.mapped hm)
    (by rw [h.attrs.2.2, hdin])
  refine ⟨h.ok, ?_, hnull, hcached, hroot⟩
  have hres : {c | c < s'.super.blocks} = {c | c < s.super.blocks} := by rw [h.super]
  have hdata : s.own live (.data k sin.din.blocks) = none := own_data_eq_none (by rw [hdin])
  rw [hres, h.own_eq ho hk]
  rcases h.indirect with ⟨hsame, -⟩ | ⟨hzero, -, hneb, hfree, hnz, hlt, -⟩
  · rw [if_pos hsame]
    refine (ho.exact.take hdata h.taken.2.2 h.taken.1).congr fun c ↦ ?_
    rw [h.free c, hsame]
    refine ⟨fun hc ↦ ⟨hc.1, hc.2.1⟩, fun hc ↦ ⟨hc.1, hc.2, ?_⟩⟩
    rintro rfl
    by_cases h0 : sin.din.indirect = 0
    · rw [h0, ho.isFree_zero] at hc
      exact Bool.noConfusion hc.1
    · rw [(hm.indirect h0).2.2] at hc
      exact Bool.noConfusion hc.1
  · rw [if_neg fun hc ↦ hnz (hc.trans hzero)]
    have hind : s.own live (.indirect k) = none := own_indirect_eq_none (by rw [hdin, hzero])
    have hfirst := ho.exact.take hind hlt hfree
    refine (hfirst.take ?_ h.taken.2.2 ⟨h.taken.1, hneb.symm⟩).congr fun c ↦ ?_
    · rw [Function.update_of_ne (by simp), hdata]
    · rw [h.free c]
      tauto

/-- A failed append keeps the invariant. -/
theorem NoSpace.sameOthers (h : s.NoSpace s') (ho : s.Owned live) (j : ℕ) :
    s.SameOthers s' live j where
  blk o c hc _ := h.blk c (by simpa using (ho.exact.held hc).2)
  inodes i _ := by rw [h.inodes]

theorem NoSpace.sameMap (h : s.NoSpace s') (ho : s.Owned live) {j : ℕ} (hj : j ∈ live) :
    s.SameMap s' j :=
  (h.sameOthers ho (j + 1)).sameMap hj (Nat.succ_ne_self j).symm

theorem NoSpace.own_eq (h : s.NoSpace s') (ho : s.Owned live) : s'.own live = s.own live :=
  own_eq_of_sameMap (by rw [h.super]) fun _ hj ↦ h.sameMap ho hj

theorem NoSpace.owned (h : s.NoSpace s') (ho : s.Owned live) : s'.Owned live where
  ok := h.ok
  exact := by
    rw [h.own_eq ho, h.super, h.freemap]
    exact ho.exact
  null j hj i hi := by
    have hsame := h.sameMap ho hj
    rw [hsame.bmap]
    exact ho.null j hj i (hsame.blocks ▸ hi)
  cached j sin hj := ho.cached j sin (by rwa [h.inodes] at hj)
  root := ⟨ho.root.1, by rw [(h.sameMap ho ho.root.1).nlinks]; exact ho.root.2⟩

end Append

/-! ## Truncation -/

section Truncate

variable {s s' : SfsFs} {live : Finset ℕ} {k b : ℕ} {sin sin' : SfsInode}

theorem Truncated.sameOthers (h : s.Truncated k sin b s' sin') (ho : s.Owned live)
    (hk : s.inodes k = some sin) : s.SameOthers s' live k where
  blk o c hc hne := by
    refine h.blk c ?_
    by_cases h0 : sin.din.indirect = 0
    · by_cases hc0 : c = 0
      · exact Or.inr hc0
      · exact Or.inl fun h ↦ hc0 (h.trans h0)
    · have hown := own_indirect (ho.cached k sin hk) ((dinOf_of_cached hk).symm ▸ h0)
      rw [dinOf_of_cached hk] at hown
      exact Or.inl (ho.exact.ne hc hown fun h ↦ hne (h ▸ rfl))
  inodes j hj := by rw [h.inodes, Function.update_of_ne hj]

/-- After a truncation the inode owns one logical block less. -/
theorem Truncated.own_eq (h : s.Truncated k sin b s' sin') (ho : s.Owned live)
    (hk : s.inodes k = some sin) :
    s'.own live = Function.update (s.own live) (.data k sin'.din.blocks) none := by
  have hothers := h.sameOthers ho hk
  have hblocks : s'.super.blocks = s.super.blocks := by rw [h.super]
  have hdin := dinOf_of_cached hk
  have hdin' := dinOf_of_cached h.cached
  have hcut := h.blocks
  funext o
  by_cases hdata : ∃ i, o = .data k i
  · obtain ⟨i, rfl⟩ := hdata
    rcases eq_or_ne i sin'.din.blocks with rfl | hi
    · rw [Function.update_self, own_data_eq_none (by rw [hdin'])]
    · rw [Function.update_of_ne (by simpa using hi), own, own, hdin, hdin', h.bmap_of_ne i hi]
      exact if_congr (and_congr_right fun _ ↦ by omega) rfl rfl
  · have hne : ∀ i, o ≠ .data k i := fun i hc ↦ hdata ⟨i, hc⟩
    rw [Function.update_of_ne (hne _)]
    by_cases hind : o = .indirect k
    · subst hind
      rw [own, own, hdin, hdin', h.attrs.2.2.2]
    · by_cases hinode : o = .inode k
      · rw [hinode]
        rfl
      · exact hothers.own hblocks (Owner.inode?_ne hinode hind hne)

/-- A truncation keeps the invariant. -/
theorem Truncated.owned (h : s.Truncated k sin b s' sin') (ho : s.Owned live)
    (hk : s.inodes k = some sin) : s'.Owned live := by
  have hlive := ho.cached k sin hk
  have hm := ho.mapped_of_cached hk
  have hdin := dinOf_of_cached hk
  obtain ⟨hnull, hcached, hroot⟩ := (h.sameOthers ho hk).inodes_ok ho hlive h.cached (h.mapped hm)
    (by rw [h.attrs.2.2.1, hdin])
  refine ⟨h.ok, ?_, hnull, hcached, hroot⟩
  have hres : {c | c < s'.super.blocks} = {c | c < s.super.blocks} := by rw [h.super]
  have hcut := h.blocks
  have hlast : s.own live (.data k sin'.din.blocks) = some b := by
    rw [own_data hlive (by rw [hdin]; omega), hdin, h.last]
  rw [hres, h.own_eq ho hk]
  exact (ho.exact.release hlast).congr h.free

end Truncate

end SfsFs

/-! ## The small file system -/

/-- The inodes of the small file system. -/
def sampleLive : Finset ℕ := {1, 3, 6}

/-- Who owns what in the small file system. -/
def sampleOwners : List (Owner × ℕ) :=
  [(.super, 0), (.inode 1, 1), (.freemap 0, 2), (.inode 3, 3), (.data 3 0, 4), (.data 3 1, 5),
    (.inode 6, 6), (.data 6 0, 7)]

theorem sampleFs_dinOf_root : sampleFs.dinOf 1 = sampleRoot := by
  refine (SfsFs.dinOf_of_none rfl).trans (SfsDiskInode.ofBytes_bytes ?_)
  refine ⟨by decide, by decide, by decide, by decide, fun j ↦ ?_, by decide⟩
  rw [sampleRoot, SfsDiskInode.ofDirect_direct, List.getD_nil]
  omega

theorem sfsFreemapBlocks_sample : sfsFreemapBlocks sampleFs.super = 1 := by
  rw [sfsFreemapBlocks, sampleFs_blocks, sfsBlkbits_eq]

theorem mem_sampleOwners {o : Owner} {c : ℕ} (h : sampleFs.own sampleLive o = some c) :
    (o, c) ∈ sampleOwners := by
  have hlive : ∀ k ∈ sampleLive, k = 1 ∨ k = 3 ∨ k = 6 := fun k hk ↦ by
    simpa [sampleLive] using hk
  cases o with
  | super =>
    cases h
    decide
  | freemap j =>
    rw [SfsFs.own] at h
    split at h
    · next hj =>
      rw [sfsFreemapBlocks_sample] at hj
      obtain rfl : j = 0 := by omega
      cases h
      decide
    · cases h
  | inode k =>
    rw [SfsFs.own] at h
    split at h
    · next hk =>
      cases h
      rcases hlive _ hk with rfl | rfl | rfl <;> decide
    · cases h
  | indirect k =>
    rw [SfsFs.own] at h
    split at h
    · next hk =>
      rcases hlive k hk.1 with rfl | rfl | rfl
      · exact absurd (by rw [sampleFs_dinOf_root]; rfl) hk.2
      · exact absurd rfl hk.2
      · exact absurd rfl hk.2
    · cases h
  | data k i =>
    rw [SfsFs.own] at h
    split at h
    · next hk =>
      obtain ⟨hk, hi⟩ := hk
      rcases hlive k hk with rfl | rfl | rfl
      · rw [sampleFs_dinOf_root] at hi
        exact absurd hi (Nat.not_lt_zero i)
      · have hi' : i < 2 := hi
        interval_cases i
        · cases h
          decide
        · cases h
          decide
      · have hi' : i < 1 := hi
        interval_cases i
        cases h
        decide
    · cases h

theorem sampleFs_owned : sampleFs.Owned sampleLive where
  ok := sampleFs_ok
  exact :=
  { covers := fun b hb hfree ↦ by
      have hb' : b < 32 := hb
      rw [sampleFs_freemap, isFree_sampleFreemap] at hfree
      have hlt : b < 8 := by omega
      interval_cases b
      · exact ⟨.super, rfl⟩
      · exact ⟨.inode 1, rfl⟩
      · refine ⟨.freemap 0, ?_⟩
        rw [SfsFs.own, sfsFreemapBlocks_sample, if_pos Nat.one_pos]
        rfl
      · exact ⟨.inode 3, rfl⟩
      · exact ⟨.data 3 0, rfl⟩
      · exact ⟨.data 3 1, rfl⟩
      · exact ⟨.inode 6, rfl⟩
      · exact ⟨.data 6 0, rfl⟩
    held := fun {o c} h ↦ by
      have hmem : ∀ p ∈ sampleOwners, p.2 < 8 := by decide
      have hlt := hmem _ (mem_sampleOwners h)
      refine ⟨?_, ?_⟩
      · change c < 32
        omega
      · rw [sampleFs_freemap, isFree_sampleFreemap]
        omega
    inj := fun {o o' c} h h' ↦ by
      have hinj : ∀ p ∈ sampleOwners, ∀ q ∈ sampleOwners, p.2 = q.2 → p.1 = q.1 := by decide
      exact hinj _ (mem_sampleOwners h) _ (mem_sampleOwners h') rfl }
  null k hk i hi := by
    have hk' : k = 1 ∨ k = 3 ∨ k = 6 := by simpa [sampleLive] using hk
    rcases hk' with rfl | rfl | rfl
    · rw [sampleFs_dinOf_root] at hi ⊢
      exact (mapped_ofDirect (by decide) (by simp) (by decide) _ _ _).null i hi
    · exact sampleFs_mapped_file.null i hi
    · exact sampleFs_mapped_other.null i hi
  cached k sin h := by
    rcases sampleFs_cached h with ⟨rfl, -⟩ | ⟨rfl, -⟩ <;> decide
  root := ⟨by decide, by rw [sfsBlknRoot, sampleFs_dinOf_root]; decide⟩

end Ucore
