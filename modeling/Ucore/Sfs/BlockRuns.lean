import Ucore.Sfs.Inode
import Ucore.Sfs.Ownership

/-!
# The ownership invariant over whole runs

Loading a logical block, cutting one off and reclaiming an inode without links keep
`SfsFs.Owned`, whether they succeed or fail; so does every sequence of them (`owned_of_blockSteps`).

`sfs_reclaim` is the long one. It empties the inode with a truncation to length 0, after which the
inode owns at most its own block and that of its entries (`Emptied`); it then writes the inode back
and frees these two (`SfsFs.Owned.erase`). Of the inodes that are live only this one is gone
afterwards. An inode that is still in use is left as it is.

With the invariant the block map of an inode is a partial function that the operations change at one
index at a time (`sfsBmap_pointwise`).
-/

namespace Ucore

open Bytes Prog

section Steps

variable {s : SfsFs} {live : Finset ℕ} {k : ℕ} {sin : SfsInode}

/-- A routine that starts by following the pointer to inode `k` only runs if `k` is in memory. -/
theorem sat_getSin_bind {α : Type} {f : SfsInode → Prog Errno SfsFs α} {Q : α → SfsFs → Prop}
    {E : Errno → SfsFs → Prop} (hf : ∀ sin, s.inodes k = some sin → ((f sin).run s).Sat Q E) :
    ((getSin k >>= f).run s).Sat Q E := by
  cases hk : s.inodes k with
  | some sin =>
    rw [bind_of_ok (getSin_eq hk)]
    exact hf sin hk
  | none =>
    have hhalt : (getSin k).run s = .panic := by
      rw [getSin, get_bind_run, hk]
      rfl
    rw [bind_of_panic hhalt]
    trivial

/-- `sfs_bmap_load_nolock` looks up a block and changes nothing, or appends one, or fails for lack
of space. -/
theorem sfsBmapLoadNolock_sat (ho : s.Owned live) (hk : s.inodes k = some sin) (i : ℕ) :
    ((sfsBmapLoadNolock k i).run s).Sat
      (fun b t ↦ (t = s ∧ i < sin.din.blocks ∧ b = s.bmap sin.din i) ∨
        (i = sin.din.blocks ∧ ∃ sin', s.Appended k sin b t sin'))
      fun e t ↦ e = .noMem ∧ s.NoSpace t ∧ i = sin.din.blocks ∧
        s.freemap.freeCount < appendCost sin.din := by
  have hm := ho.mapped_of_cached hk
  rcases lt_trichotomy i sin.din.blocks with hi | rfl | hi
  · rw [sfsBmapLoadNolock_lookup ho.ok hk hm hi]
    exact Or.inl ⟨rfl, hi, rfl⟩
  · by_cases hlt : sin.din.blocks < 1036
    · rcases sfsBmapLoadNolock_append ho.ok hk hm ho.isFree_zero hlt with
        ⟨b, t, sin', happ, hrun⟩ | ⟨t, hno, hfull, hrun⟩ | ⟨-, hrun⟩
      · rw [hrun]
        exact Or.inr ⟨rfl, sin', happ⟩
      · rw [hrun]
        exact ⟨rfl, hno, rfl, hfull⟩
      · rw [hrun]
        trivial
    · rw [sfsBmapLoadNolock_panic_of_full hk (by omega) (le_refl _)]
      trivial
  · rw [sfsBmapLoadNolock_panic_of_gt hk hi]
    trivial

theorem sfsBmapLoadNolock_owned (ho : s.Owned live) (i : ℕ) :
    ((sfsBmapLoadNolock k i).run s).Sat (fun _ t ↦ t.Owned live) fun _ t ↦ t.Owned live := by
  cases hk : s.inodes k with
  | some sin =>
    refine (sfsBmapLoadNolock_sat ho hk i).imp (fun b t h ↦ ?_) fun e t h ↦ h.2.1.owned ho
    rcases h with ⟨rfl, -⟩ | ⟨-, sin', happ⟩
    · exact ho
    · exact happ.owned ho hk
  | none =>
    exact sat_getSin_bind fun sin hk' ↦ by
      rw [hk] at hk'
      cases hk'

theorem sfsBmapTruncateNolock_owned (ho : s.Owned live) :
    ((sfsBmapTruncateNolock k).run s).Sat (fun _ t ↦ t.Owned live) fun _ t ↦ t.Owned live := by
  refine sat_getSin_bind fun sin hk ↦ sat_assert_bind fun hne ↦ ?_
  obtain ⟨b, t, sin', htrunc, hrun⟩ :=
    sfsBmapTruncateNolock_eq ho.ok hk (ho.mapped_of_cached hk) hne
  rw [sfsBmapTruncateNolock, bind_of_ok (getSin_eq hk), assert_bind_run hne] at hrun
  rw [hrun]
  exact htrunc.owned ho hk

/-! ## Reclaim -/

/-- What the part of `sfs_reclaim` that empties the inode establishes. -/
structure Emptied (s : SfsFs) (live : Finset ℕ) (k : ℕ) : Prop where
  owned : s.Owned live
  inode : ∃ sin, s.inodes k = some sin ∧ sin.din.nlinks = 0 ∧ sin.din.blocks = 0

theorem vopTruncate_zero_sat (ho : s.Owned live) (hk : s.inodes k = some sin)
    (hlinks : sin.din.nlinks = 0) :
    ((vopTruncate k 0).run s).Sat (fun _ t ↦ Emptied t live k) fun _ _ ↦ False := by
  rw [vopTruncate, bind_of_ok (getSin_eq hk)]
  refine sat_assert_bind fun _ ↦ ?_
  rw [sfsTruncfile, sfsMaxFileSize_eq, if_neg (by omega), bind_of_ok (getSin_eq hk)]
  by_cases hsize : sin.din.size = (0 : ℤ).toNat
  · rw [if_pos hsize]
    by_cases hblocks : truncBlocks (0 : ℤ).toNat = sin.din.blocks
    · rw [run_assert hblocks]
      exact ⟨ho, sin, hk, hlinks, hblocks.symm⟩
    · rw [run_assert_neg hblocks]
      trivial
  · rw [if_neg hsize]
    obtain ⟨t, sin', hrun, ⟨ho', hk', hlinks'⟩, hblocks⟩ := sfsTruncReduce_eq
      (I := fun s sin ↦ s.Owned live ∧ s.inodes k = some sin ∧ sin.din.nlinks = 0)
      sin.din.blocks ⟨ho, hk, hlinks⟩
      (fun h ↦ ⟨h.1.ok, h.2.1, h.1.mapped_of_cached h.2.1⟩)
      (fun h htrunc ↦ ⟨htrunc.owned h.1 h.2.1, htrunc.cached, htrunc.attrs.2.2.1.trans h.2.2⟩)
      (le_refl _)
    have hzero : truncBlocks (0 : ℤ).toNat = 0 := rfl
    have hloops : (sfsTruncLoops k sin.din.blocks (truncBlocks (0 : ℤ).toNat)).run s =
        .ok () t := by
      rw [hzero, sfsTruncLoops, if_neg (by omega), Nat.sub_zero, hrun]
    rw [bind_of_ok hloops, bind_of_ok (getSin_eq hk')]
    refine sat_assert_bind fun _ ↦ ?_
    exact ⟨ho'.setInode hk' rfl, _, SfsFs.setInode_inodes_self .., hlinks', by
      change sin'.din.blocks = 0
      omega⟩

theorem SfsFs.Owned.used_inode (ho : s.Owned live) (hk : k ∈ live) : s.Used k :=
  ho.used_of_own (by simp) (SfsFs.own_inode hk)

theorem SfsFs.Owned.writeBack (ho : s.Owned live) (hk : s.inodes k = some sin) :
    (s.writeBack k sin).Owned live := by
  have hlive := ho.cached k sin hk
  have hset : (s.setInode k { sin with dirty := false }).Owned live := ho.setInode hk rfl
  exact hset.setBlk (SfsFs.setInode_inodes_self ..) (SfsFs.own_inode hlive) rfl (by simp) _

theorem sfsReclaimSync_sat (h : Emptied s live k) :
    ((sfsReclaimSync k).run s).Sat (fun _ t ↦ Emptied t live k) fun _ _ ↦ False := by
  obtain ⟨ho, sin, hk, hlinks, hblocks⟩ := h
  have hused := ho.used_inode (ho.cached k sin hk)
  rw [sfsReclaimSync, bind_of_ok (getSin_eq hk)]
  by_cases hdirty : sin.dirty = true
  · rw [if_pos hdirty, sfsFsync_dirty ho.ok hk hdirty hused]
    exact ⟨ho.writeBack hk, _, SfsFs.setInode_inodes_self .., hlinks, hblocks⟩
  · rw [if_neg hdirty]
    exact ⟨ho, sin, hk, hlinks, hblocks⟩

/-- The invariant after all that an empty inode owned was given back and the inode is gone. -/
theorem SfsFs.Owned.erase {t : SfsFs} (h : Emptied s live k) (ht : t.Ok)
    (hinodes : t.inodes = Function.update s.inodes k none) (hblk : t.dev.blk = s.dev.blk)
    (hblocks : t.super.blocks = s.super.blocks)
    (hfree : ∀ c, t.freemap.isFree c = true ↔ s.freemap.isFree c = true ∨ c = k ∨
      s.own live (.indirect k) = some c) : t.Owned (live.erase k) := by
  obtain ⟨ho, sin, hk, hlinks, hempty⟩ := h
  have hdin := SfsFs.dinOf_of_cached hk
  have hlive := ho.cached k sin hk
  have hother : ∀ j ≠ k, t.dinOf j = s.dinOf j := fun j hj ↦ by
    rw [SfsFs.dinOf, SfsFs.dinOf, hinodes, Function.update_of_ne hj, hblk]
  have hmap : ∀ j ≠ k, ∀ i, t.bmap (t.dinOf j) i = s.bmap (s.dinOf j) i := fun j hj i ↦ by
    rw [hother j hj]
    exact SfsFs.bmap_congr rfl rfl fun _ ↦ by rw [hblk]
  -- what belonged to `k` belongs to nobody, everything else to the same owner
  have hown : t.own (live.erase k) = fun o ↦ if o.inode? = some k then none else s.own live o := by
    funext o
    by_cases hok : o.inode? = some k
    · rw [if_pos hok]
      cases o with
      | super => cases hok
      | freemap j => cases hok
      | inode j => exact if_neg (by cases hok; simp)
      | indirect j => exact if_neg (by cases hok; simp)
      | data j i => exact if_neg (by cases hok; simp)
    · rw [if_neg hok]
      cases o with
      | super => rfl
      | freemap j => rw [SfsFs.own, SfsFs.own, sfsFreemapBlocks, sfsFreemapBlocks, hblocks]
      | inode j =>
        have hj : j ≠ k := fun hc ↦ hok (congrArg some hc)
        exact if_congr (by rw [Finset.mem_erase, and_iff_right hj]) rfl rfl
      | indirect j =>
        have hj : j ≠ k := fun hc ↦ hok (congrArg some hc)
        rw [SfsFs.own, SfsFs.own, hother j hj]
        exact if_congr (by rw [Finset.mem_erase, and_iff_right hj]) rfl rfl
      | data j i =>
        have hj : j ≠ k := fun hc ↦ hok (congrArg some hc)
        rw [SfsFs.own, SfsFs.own, hmap j hj, hother j hj]
        exact if_congr (by rw [Finset.mem_erase, and_iff_right hj]) rfl rfl
  -- the root has a link, so it is not the inode that goes
  have hroot : sfsBlknRoot ≠ k := by
    rintro rfl
    exact ho.root.2 (hdin ▸ hlinks)
  refine ⟨ht, ?_, fun j hj i hi ↦ ?_, fun j sin' hj ↦ ?_, ?_, ?_⟩
  · rw [hblocks, hown]
    refine (ho.exact.releaseAll (fun o ↦ o.inode? = some k)).congr fun c ↦ (hfree c).trans ?_
    refine or_congr_right ⟨?_, ?_⟩
    · rintro (rfl | hc)
      · exact ⟨.inode c, rfl, SfsFs.own_inode hlive⟩
      · exact ⟨.indirect k, rfl, hc⟩
    · rintro ⟨o, hok, ho'⟩
      cases o with
      | super => cases hok
      | freemap j => cases hok
      | inode j =>
        cases hok
        rw [SfsFs.own_inode hlive] at ho'
        exact Or.inl (Option.some.inj ho').symm
      | indirect j =>
        cases hok
        exact Or.inr ho'
      | data j i =>
        cases hok
        -- the inode was empty
        rw [SfsFs.own_data_eq_none (by rw [hdin, hempty]; omega)] at ho'
        cases ho'
  · obtain ⟨hjk, hj⟩ := Finset.mem_erase.mp hj
    rw [hmap j hjk]
    exact ho.null j hj i (hother j hjk ▸ hi)
  · by_cases hjk : j = k
    · rw [hinodes, hjk, Function.update_self] at hj
      cases hj
    · rw [hinodes, Function.update_of_ne hjk] at hj
      exact Finset.mem_erase.mpr ⟨hjk, ho.cached j sin' hj⟩
  · exact Finset.mem_erase.mpr ⟨hroot, ho.root.1⟩
  · rw [hother _ hroot]
    exact ho.root.2

theorem SfsFs.Ok.removeLinks (h : s.Ok) (k : ℕ) : (s.removeLinks k).Ok where
  faults := h.faults
  blocks_le := h.blocks_le
  wf := h.wf
  blocks_le_nbits := h.blocks_le_nbits
  unused := h.unused

theorem sfsReclaimKill_sat (h : Emptied s live k) :
    ((sfsReclaimKill k).run s).Sat (fun _ t ↦ t.Owned (live.erase k)) fun _ _ ↦ False := by
  obtain ⟨ho, sin, hk, hlinks, hblocks⟩ := id h
  have hlive := ho.cached k sin hk
  have hused : (s.removeLinks k).Used k := ho.used_inode hlive
  have hok := ho.ok.removeLinks k
  have hok' := hok.releaseBlock hused
  have hlt := hused.lt_nbits hok
  rw [sfsReclaimKill, bind_of_ok (getSin_eq hk), modify_bind_run]
  by_cases hind : sin.din.indirect = 0
  · have hrun : (sfsReclaimBlocks k sin).run (s.removeLinks k)
        = .ok () ((s.removeLinks k).releaseBlock k) := by
      rw [sfsReclaimBlocks, if_pos hlinks, bind_of_ok (sfsBlockFree_eq hok hused),
        if_neg (not_not.mpr hind), run_pure]
    have hnone : s.own live (.indirect k) = none :=
      SfsFs.own_indirect_eq_none (by rw [SfsFs.dinOf_of_cached hk, hind])
    rw [bind_of_ok hrun]
    by_cases hcount : sin.refCount = 0 ∧ sin.openCount = 0
    · rw [run_assert hcount]
      refine SfsFs.Owned.erase h hok' rfl rfl rfl fun c ↦ (Bitmap.isFree_set hlt c).trans ?_
      rw [hnone]
      simp [SfsFs.removeLinks]
    · rw [run_assert_neg hcount]
      trivial
  · have hown := SfsFs.own_indirect hlive (by rwa [SfsFs.dinOf_of_cached hk])
    rw [SfsFs.dinOf_of_cached hk] at hown
    have hused' : ((s.removeLinks k).releaseBlock k).Used sin.din.indirect :=
      (SfsFs.used_releaseBlock hok hused).mpr ⟨ho.used_of_own (by simp) hown,
        ho.exact.ne hown (SfsFs.own_inode hlive) (by simp)⟩
    have hrun : (sfsReclaimBlocks k sin).run (s.removeLinks k)
        = .ok () (((s.removeLinks k).releaseBlock k).releaseBlock sin.din.indirect) := by
      rw [sfsReclaimBlocks, if_pos hlinks, bind_of_ok (sfsBlockFree_eq hok hused), if_pos hind,
        sfsBlockFree_eq hok' hused']
    rw [bind_of_ok hrun]
    by_cases hcount : sin.refCount = 0 ∧ sin.openCount = 0
    · rw [run_assert hcount]
      refine SfsFs.Owned.erase h (hok'.releaseBlock hused') rfl rfl rfl fun c ↦
        (Bitmap.isFree_set (hused'.lt_nbits hok') c).trans ?_
      rw [SfsFs.releaseBlock_freemap, Bitmap.isFree_set hlt, hown, Option.some.injEq, or_assoc,
        eq_comm (a := sin.din.indirect)]
      rfl
    · rw [run_assert_neg hcount]
      trivial

/-- Reclaiming an inode without links gives back all it owned, or leaves everything as it was
because the inode is still in use. -/
theorem sfsReclaim_owned (ho : s.Owned live) (hk : s.inodes k = some sin)
    (hlinks : sin.din.nlinks = 0) :
    ((sfsReclaim k).run s).Sat (fun _ t ↦ t.Owned (live.erase k)) fun _ t ↦ t.Owned live := by
  rw [sfsReclaim, bind_of_ok (getSin_eq hk)]
  refine sat_assert_bind fun _ ↦ ?_
  set sin' : SfsInode := { sin with reclaimCount := sin.reclaimCount - 1 } with hsin'
  have ho' : (s.setInode k sin').Owned live := ho.setInode hk rfl
  have hk' : (s.setInode k sin').inodes k = some sin' := SfsFs.setInode_inodes_self ..
  rw [putSin_bind_run]
  by_cases hbusy : sin.reclaimCount - 1 ≠ 0 ∨ sin.refCount ≠ 0
  · rw [if_pos hbusy]
    exact ho'
  · rw [if_neg hbusy, if_pos hlinks]
    refine sat_bind ((vopTruncate_zero_sat ho' hk' hlinks).imp (fun _ _ h ↦ h) fun _ _ h ↦ h.elim)
      fun _ t ht ↦ ?_
    refine sat_bind ((sfsReclaimSync_sat ht).imp (fun _ _ h ↦ h) fun _ _ h ↦ h.elim)
      fun _ u hu ↦ ?_
    exact (sfsReclaimKill_sat hu).imp (fun _ _ h ↦ h) fun _ _ h ↦ h.elim

end Steps

/-! ## Runs -/

/-- One call: the routine is run and ends with an error or without; a call that stops the machine is
not a step. Reclaiming an inode removes it from the inodes the file system has. -/
inductive BlockStep : SfsFs × Finset ℕ → SfsFs × Finset ℕ → Prop
  | load (k i : ℕ) {s t : SfsFs} {live : Finset ℕ}
      (h : ((sfsBmapLoadNolock k i).run s).state? = some t) : BlockStep (s, live) (t, live)
  | truncate (k : ℕ) {s t : SfsFs} {live : Finset ℕ}
      (h : ((sfsBmapTruncateNolock k).run s).state? = some t) : BlockStep (s, live) (t, live)
  | reclaim (k : ℕ) {s t : SfsFs} {live : Finset ℕ} {sin : SfsInode}
      (hk : s.inodes k = some sin) (hlinks : sin.din.nlinks = 0)
      (h : (sfsReclaim k).run s = .ok () t) : BlockStep (s, live) (t, live.erase k)
  | reclaimFailed (k : ℕ) {s t : SfsFs} {live : Finset ℕ} {sin : SfsInode} {e : Errno}
      (hk : s.inodes k = some sin) (hlinks : sin.din.nlinks = 0)
      (h : (sfsReclaim k).run s = .error e t) : BlockStep (s, live) (t, live)

theorem BlockStep.owned {p q : SfsFs × Finset ℕ} (h : BlockStep p q) (ho : p.1.Owned p.2) :
    q.1.Owned q.2 := by
  cases h with
  | load k i h => exact (sfsBmapLoadNolock_owned ho i).state h
  | truncate k h => exact (sfsBmapTruncateNolock_owned ho).state h
  | reclaim k hk hlinks h =>
    have hsat := sfsReclaim_owned ho hk hlinks
    rwa [h] at hsat
  | reclaimFailed k hk hlinks h =>
    have hsat := sfsReclaim_owned ho hk hlinks
    rwa [h] at hsat

/-- **Blocks are owned exactly once**, in every state that loads, truncations and reclaims lead to
from one in which they are. -/
theorem owned_of_blockSteps {s t : SfsFs} {live live' : Finset ℕ} (ho : s.Owned live)
    (h : Relation.ReflTransGen BlockStep (s, live) (t, live')) : t.Owned live' := by
  have hrun : ∀ q, Relation.ReflTransGen BlockStep (s, live) q → q.1.Owned q.2 := by
    intro q hq
    induction hq with
    | refl => exact ho
    | tail _ hstep ih => exact hstep.owned ih
  exact hrun _ h

theorem owned_of_blockSteps_sample :
    ∃ t, Relation.ReflTransGen BlockStep (sampleFs, sampleLive) (t, sampleLive) ∧
      t.Owned sampleLive := by
  have hcached : sampleFs.inodes 6 = some ⟨sampleOther, false, 1, 1, 1⟩ := rfl
  rcases sfsBmapLoadNolock_append sampleFs_ok hcached sampleFs_mapped_other
      sampleFs_tailClear.zero (by change 1 < 1036; omega) with
    ⟨b, t, sin', -, hrun⟩ | ⟨t, -, hfull, -⟩ | ⟨htail, -⟩
  · have hsteps : Relation.ReflTransGen BlockStep (sampleFs, sampleLive) (t, sampleLive) :=
      .single (.load 6 _ (congrArg Outcome.state? hrun))
    exact ⟨t, hsteps, owned_of_blockSteps sampleFs_owned hsteps⟩
  · rw [sampleFs_freemap, freeCount_sampleFreemap, appendCost] at hfull
    split at hfull <;> omega
  · exact absurd sampleFs_tailClear htail

/-! ## The map as a partial function -/

section Pointwise

variable {s t : SfsFs} {live : Finset ℕ} {k b : ℕ} {sin sin' : SfsInode}

theorem SfsFs.Appended.bmap_eq (h : s.Appended k sin b t sin') :
    t.bmap sin'.din = Function.update (s.bmap sin.din) sin.din.blocks b := by
  funext i
  rcases eq_or_ne i sin.din.blocks with rfl | hi
  · rw [h.bmap_last, Function.update_self]
  · rw [h.bmap_of_ne i hi, Function.update_of_ne hi]

theorem SfsFs.Truncated.bmap_eq (h : s.Truncated k sin b t sin') :
    t.bmap sin'.din = Function.update (s.bmap sin.din) sin'.din.blocks 0 := by
  funext i
  rcases eq_or_ne i sin'.din.blocks with rfl | hi
  · rw [h.bmap_last, Function.update_self]
  · rw [h.bmap_of_ne i hi, Function.update_of_ne hi]

/-- **The block map is a partial function**, with 0 for an index that has no block: a lookup below
`din->blocks` evaluates it, an append defines it at `din->blocks`, and a truncation makes it
undefined at the last index again. -/
theorem sfsBmap_pointwise (ho : s.Owned live) (hk : s.inodes k = some sin) :
    (∀ i < sin.din.blocks, (sfsBmapLoadNolock k i).run s = .ok (s.bmap sin.din i) s) ∧
    (∀ b t, (sfsBmapLoadNolock k sin.din.blocks).run s = .ok b t →
      ∃ sin', t.inodes k = some sin' ∧ t.Owned live ∧ s.freemap.isFree b = true ∧
        (∀ i < 4096, t.dev.blk b i = 0) ∧
        (∀ o, o ≠ .data k sin.din.blocks → t.own live o ≠ some b) ∧
        sin'.din.blocks = sin.din.blocks + 1 ∧
        t.bmap sin'.din = Function.update (s.bmap sin.din) sin.din.blocks b ∧
        ∃ u sin'', (sfsBmapTruncateNolock k).run t = .ok () u ∧ u.inodes k = some sin'' ∧
          sin''.din.blocks = sin.din.blocks ∧ u.bmap sin''.din = s.bmap sin.din) ∧
    (sin.din.blocks ≠ 0 → ∃ t sin', (sfsBmapTruncateNolock k).run s = .ok () t ∧
      t.inodes k = some sin' ∧ sin'.din.blocks + 1 = sin.din.blocks ∧
      t.bmap sin'.din = Function.update (s.bmap sin.din) sin'.din.blocks 0) := by
  have hm := ho.mapped_of_cached hk
  refine ⟨fun i hi ↦ sfsBmapLoadNolock_lookup ho.ok hk hm hi, fun b t hrun ↦ ?_, fun hne ↦ ?_⟩
  · have hsat := sfsBmapLoadNolock_sat ho hk sin.din.blocks
    rw [hrun] at hsat
    rcases hsat with ⟨-, hlt, -⟩ | ⟨-, sin', happ⟩
    · exact absurd hlt (lt_irrefl _)
    have howned := happ.owned ho hk
    have hm' := howned.mapped_of_cached happ.cached
    have hblocks := happ.blocks
    have hlast : t.own live (.data k sin.din.blocks) = some b := by
      have hdin := SfsFs.dinOf_of_cached happ.cached
      rw [SfsFs.own_data (ho.cached k sin hk) (by rw [hdin]; omega), hdin, happ.bmap_last]
    obtain ⟨c, u, sin'', htrunc, hcut⟩ :=
      sfsBmapTruncateNolock_eq howned.ok happ.cached hm' (by omega)
    have hback : sin''.din.blocks = sin.din.blocks := by
      have := htrunc.blocks
      omega
    refine ⟨sin', happ.cached, howned, happ.taken.1, happ.cleared, fun o hne hown ↦ ?_, hblocks,
      happ.bmap_eq, u, sin'', hcut, htrunc.cached, hback, ?_⟩
    · exact hne (howned.exact.inj hown hlast)
    · -- the index that was defined last was undefined before
      have hnull : s.bmap sin.din sin.din.blocks = 0 := hm.null _ le_rfl
      rw [htrunc.bmap_eq, hback, happ.bmap_eq, Function.update_idem, ← hnull,
        Function.update_eq_self]
  · obtain ⟨c, t, sin', htrunc, hcut⟩ := sfsBmapTruncateNolock_eq ho.ok hk hm hne
    exact ⟨t, sin', hcut, htrunc.cached, htrunc.blocks, htrunc.bmap_eq⟩

/-- The first file of the small file system. -/
theorem sfsBmap_pointwise_sample : ∃ sin, sampleFs.inodes 3 = some sin ∧
    (∀ i < sin.din.blocks,
      (sfsBmapLoadNolock 3 i).run sampleFs = .ok (sampleFs.bmap sin.din i) sampleFs) ∧
    (∀ b t, (sfsBmapLoadNolock 3 sin.din.blocks).run sampleFs = .ok b t →
      ∃ sin', t.inodes 3 = some sin' ∧ t.Owned sampleLive ∧ sampleFs.freemap.isFree b = true ∧
        (∀ i < 4096, t.dev.blk b i = 0) ∧
        (∀ o, o ≠ .data 3 sin.din.blocks → t.own sampleLive o ≠ some b) ∧
        sin'.din.blocks = sin.din.blocks + 1 ∧
        t.bmap sin'.din = Function.update (sampleFs.bmap sin.din) sin.din.blocks b ∧
        ∃ u sin'', (sfsBmapTruncateNolock 3).run t = .ok () u ∧ u.inodes 3 = some sin'' ∧
          sin''.din.blocks = sin.din.blocks ∧ u.bmap sin''.din = sampleFs.bmap sin.din) ∧
    (sin.din.blocks ≠ 0 → ∃ t sin', (sfsBmapTruncateNolock 3).run sampleFs = .ok () t ∧
      t.inodes 3 = some sin' ∧ sin'.din.blocks + 1 = sin.din.blocks ∧
      t.bmap sin'.din = Function.update (sampleFs.bmap sin.din) sin'.din.blocks 0) := by
  have hcached : sampleFs.inodes 3 = some ⟨sampleFile, false, 1, 1, 1⟩ := rfl
  exact ⟨_, hcached, sfsBmap_pointwise sampleFs_owned hcached⟩

end Pointwise

end Ucore
