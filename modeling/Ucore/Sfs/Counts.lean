import Ucore.Sfs.Dirent

/-!
# The counts of an inode

`ref_count` and `open_count` are written by the functions of `kern/fs/vfs/inode.c` and by
`sfs_load_inode`, and by nothing else in the file system: no other routine changes them, whether it
returns or fails. `sfs_reclaim` takes an inode out of memory, but only one whose counts are both 0.
-/

namespace Ucore

open Bytes Prog

namespace SfsFs

/-- `ref_count` and `open_count` of inode `k`. An inode that is not in memory has neither. -/
def counts (s : SfsFs) (k : ℕ) : ℕ × ℕ :=
  match s.inodes k with
  | some sin => (sin.refCount, sin.openCount)
  | none => (0, 0)

theorem counts_of_cached {s : SfsFs} {k : ℕ} {sin : SfsInode} (h : s.inodes k = some sin) :
    s.counts k = (sin.refCount, sin.openCount) := by
  rw [counts, h]

theorem counts_setInode (s : SfsFs) (k : ℕ) (sin : SfsInode) :
    (s.setInode k sin).counts = Function.update s.counts k (sin.refCount, sin.openCount) := by
  funext j
  by_cases hj : j = k
  · rw [hj, Function.update_self, counts_of_cached (s.setInode_inodes_self k sin)]
  · rw [Function.update_of_ne hj, counts, counts, setInode_inodes_of_ne s k sin hj]

/-- Writing an inode back with the counts that it has. -/
theorem counts_setInode_of_eq {s : SfsFs} {k : ℕ} {sin : SfsInode}
    (h : s.counts k = (sin.refCount, sin.openCount)) : (s.setInode k sin).counts = s.counts := by
  rw [counts_setInode, ← h, Function.update_eq_self]

end SfsFs

/-- The counts are as they were, from every state where inode `k` has the counts `c`. -/
def MovesAt {α : Type} (k : ℕ) (c : ℕ × ℕ) (m : Prog Errno SfsFs α) : Prop :=
  ∀ s : SfsFs, s.counts k = c →
    (m.run s).Sat (fun _ t ↦ Same SfsFs.counts s t) fun _ t ↦ Same SfsFs.counts s t

/-! ## Routines that leave the counts alone -/

section Counts

variable {α β : Type} {k : ℕ} {c : ℕ × ℕ}

theorem MovesAt.of_moves {m : Prog Errno SfsFs α} (h : Moves (Same SfsFs.counts) m) :
    MovesAt k c m := fun s _ ↦ h s

theorem MovesAt.bind {m : Prog Errno SfsFs α} {f : α → Prog Errno SfsFs β}
    (hm : Moves (Same SfsFs.counts) m) (hf : ∀ a, MovesAt k c (f a)) : MovesAt k c (m >>= f) := by
  intro s hs
  refine sat_bind (hm s) fun a t ht ↦ ?_
  refine (hf a t ((congrFun ht k).trans hs)).imp (fun _ u hu ↦ ?_) fun _ u hu ↦ ?_
  · exact Eq.trans hu ht
  · exact Eq.trans hu ht

theorem MovesAt.bindAt {m : Prog Errno SfsFs α} {f : α → Prog Errno SfsFs β} (hm : MovesAt k c m)
    (hf : ∀ a, Moves (Same SfsFs.counts) (f a)) : MovesAt k c (m >>= f) := by
  intro s hs
  refine sat_bind (hm s hs) fun a t ht ↦ ?_
  refine (hf a t).imp (fun _ u hu ↦ ?_) fun _ u hu ↦ ?_
  · exact Eq.trans hu ht
  · exact Eq.trans hu ht

theorem MovesAt.putSin {sin : SfsInode} (h : (sin.refCount, sin.openCount) = c) :
    MovesAt k c (putSin k sin) := fun _ hs ↦ SfsFs.counts_setInode_of_eq (hs.trans h.symm)

/-- Following a pointer to an inode tells what counts it has. -/
theorem moves_getSin {f : SfsInode → Prog Errno SfsFs β}
    (hf : ∀ sin, MovesAt k (sin.refCount, sin.openCount) (f sin)) :
    Moves (Same SfsFs.counts) (getSin k >>= f) := by
  intro s
  cases hk : s.inodes k with
  | some sin =>
    rw [bind_of_ok (getSin_eq hk)]
    exact hf sin s (SfsFs.counts_of_cached hk)
  | none =>
    have hpanic : (getSin k).run s = .panic := by
      rw [getSin, get_bind_run, hk]
      rfl
    rw [bind_of_panic hpanic]
    trivial

theorem moves_onFreemap (m : Prog Errno Bitmap α) : Moves (Same SfsFs.counts) (onFreemap m) := by
  have hsame : ∀ (b : Bitmap) (s : SfsFs), Same SfsFs.counts s (s.setFreemap b) := fun _ _ ↦ rfl
  exact Moves.zoom hsame m

theorem moves_onDev (m : Prog Errno Device α) : Moves (Same SfsFs.counts)
    (m.zoom SfsFs.dev fun dev s ↦ { s with dev := dev }) := by
  have hsame : ∀ (dev : Device) (s : SfsFs), Same SfsFs.counts s { s with dev := dev } :=
    fun _ _ ↦ rfl
  exact Moves.zoom hsame m

theorem moves_chargeBlock : Moves (Same SfsFs.counts) (modify SfsFs.chargeBlock : Prog Errno _ _) :=
  Moves.modify fun s ↦ Eq.refl s.counts

theorem moves_creditBlock : Moves (Same SfsFs.counts) (modify SfsFs.creditBlock : Prog Errno _ _) :=
  Moves.modify fun s ↦ Eq.refl s.counts

theorem moves_sfsRwblockNolock (buf : Bytes) (base blkno : ℕ) (write check : Bool) :
    Moves (Same SfsFs.counts) (sfsRwblockNolock buf base blkno write check) :=
  Moves.get.bind fun _ ↦ (Moves.assert _).bind fun _ ↦
    moves_onDev _

theorem moves_sfsRbuf (buf : Bytes) (base len blkno offset : ℕ) :
    Moves (Same SfsFs.counts) (sfsRbuf buf base len blkno offset) :=
  (Moves.assert _).bind fun _ ↦ (moves_sfsRwblockNolock _ _ _ _ _).bind fun _ ↦ Moves.pure _

theorem moves_sfsWbuf (buf : Bytes) (base len blkno offset : ℕ) :
    Moves (Same SfsFs.counts) (sfsWbuf buf base len blkno offset) :=
  (Moves.assert _).bind fun _ ↦ (moves_sfsRwblockNolock _ _ _ _ _).bind fun _ ↦
    (moves_sfsRwblockNolock _ _ _ _ _).bind fun _ ↦ Moves.pure _

theorem moves_sfsBlockInuse (ino : ℕ) : Moves (Same SfsFs.counts) (sfsBlockInuse ino) :=
  Moves.get.bind fun _ ↦ Moves.ite
    (fun _ ↦ (moves_onFreemap _).bind fun _ ↦ Moves.pure _) fun _ ↦ Moves.halt

theorem moves_sfsBlockAlloc : Moves (Same SfsFs.counts) sfsBlockAlloc := by
  refine (moves_onFreemap _).bind fun ino ↦ Moves.get.bind fun _ ↦
    (Moves.assert _).bind fun _ ↦ moves_chargeBlock.bind fun _ ↦
      (moves_sfsBlockInuse ino).bind fun _ ↦ (Moves.assert _).bind fun _ ↦ ?_
  refine Moves.bind ?_ fun _ ↦ Moves.pure _
  exact (moves_sfsRwblockNolock _ _ _ _ _).bind fun _ ↦ Moves.pure _

theorem moves_sfsBlockFree (ino : ℕ) : Moves (Same SfsFs.counts) (sfsBlockFree ino) :=
  (moves_sfsBlockInuse ino).bind fun _ ↦ (Moves.assert _).bind fun _ ↦
    (moves_onFreemap _).bind fun _ ↦ moves_creditBlock

theorem moves_sfsBmapFillSlot (entp ent offset : ℕ) :
    Moves (Same SfsFs.counts) (sfsBmapFillSlot entp ent offset) := by
  have hcleanup : Moves (Same SfsFs.counts) (sfsBmapCleanup entp ent) :=
    Moves.ite (fun _ ↦ moves_sfsBlockFree ent) fun _ ↦ Moves.pure _
  refine (moves_sfsBlockAlloc.onError hcleanup).bind fun ino ↦ ?_
  refine ((moves_sfsWbuf _ _ _ _ _).onError ?_).bind fun _ ↦ Moves.pure _
  exact (moves_sfsBlockFree ino).bind fun _ ↦ hcleanup

theorem moves_sfsBmapGetSubNolock (entp index : ℕ) (create : Bool) :
    Moves (Same SfsFs.counts) (sfsBmapGetSubNolock entp index create) := by
  refine (Moves.assert _).bind fun _ ↦ Moves.ite (fun _ ↦ ?_) fun _ ↦
    Moves.ite (fun _ ↦ ?_) fun _ ↦ ?_
  · exact (moves_sfsRbuf _ _ _ _ _).bind fun _ ↦
      Moves.ite (fun _ ↦ Moves.pure _) fun _ ↦ moves_sfsBmapFillSlot _ _ _
  · exact Moves.pure _
  · exact moves_sfsBlockAlloc.bind fun _ ↦ moves_sfsBmapFillSlot _ _ _

theorem moves_sfsBmapGetOut (ino : ℕ) : Moves (Same SfsFs.counts) (sfsBmapGetOut ino) :=
  Moves.ite (fun _ ↦ Moves.pure _) fun _ ↦ (moves_sfsBlockInuse ino).bind fun _ ↦
    (Moves.assert _).bind fun _ ↦ Moves.pure _

theorem moves_sfsBmapGetNolock (k index : ℕ) (create : Bool) :
    Moves (Same SfsFs.counts) (sfsBmapGetNolock k index create) := by
  refine moves_getSin fun sin ↦ ?_
  split
  · split
    · exact .bind moves_sfsBlockAlloc fun ino ↦
        .bindAt (.putSin rfl) fun _ ↦ moves_sfsBmapGetOut ino
    · exact .of_moves (moves_sfsBmapGetOut _)
  · split
    · refine .bind (moves_sfsBmapGetSubNolock _ _ _) fun a ↦ ?_
      obtain ⟨ent, ino⟩ := a
      dsimp only
      split
      · exact .bind (Moves.assert _) fun _ ↦ .bindAt (.putSin rfl) fun _ ↦ moves_sfsBmapGetOut ino
      · exact .of_moves (moves_sfsBmapGetOut ino)
    · exact .of_moves Moves.halt

theorem moves_sfsBmapFreeNolock (k index : ℕ) :
    Moves (Same SfsFs.counts) (sfsBmapFreeNolock k index) := by
  refine moves_getSin fun sin ↦ ?_
  split
  · split
    · exact .bind (moves_sfsBlockFree _) fun _ ↦ .putSin rfl
    · exact .of_moves (Moves.pure _)
  · split
    · refine .of_moves ((moves_sfsBlockInuse _).bind fun _ ↦ (Moves.assert _).bind fun _ ↦
        (moves_sfsRbuf _ _ _ _ _).bind fun _ ↦ Moves.ite (fun _ ↦ ?_) fun _ ↦ Moves.pure _)
      exact (moves_sfsWbuf _ _ _ _ _).bind fun _ ↦ moves_sfsBlockFree _
    · exact .of_moves (Moves.pure _)

theorem moves_sfsBmapLoadNolock (k index : ℕ) :
    Moves (Same SfsFs.counts) (sfsBmapLoadNolock k index) := by
  refine moves_getSin fun sin ↦ .of_moves ?_
  refine (Moves.assert _).bind fun _ ↦ (moves_sfsBmapGetNolock _ _ _).bind fun ino ↦
    (moves_sfsBlockInuse ino).bind fun _ ↦ (Moves.assert _).bind fun _ ↦ ?_
  refine Moves.ite (fun _ ↦ ?_) fun _ ↦ Moves.pure _
  exact moves_getSin fun _ ↦ .bindAt (.putSin rfl) fun _ ↦ Moves.pure _

theorem moves_sfsBmapTruncateNolock (k : ℕ) :
    Moves (Same SfsFs.counts) (sfsBmapTruncateNolock k) := by
  refine moves_getSin fun sin ↦ .of_moves ?_
  refine (Moves.assert _).bind fun _ ↦ (moves_sfsBmapFreeNolock _ _).bind fun _ ↦ ?_
  exact moves_getSin fun _ ↦ .putSin rfl

theorem moves_sfsTruncfile (k : ℕ) (len : ℤ) :
    Moves (Same SfsFs.counts) (sfsTruncfile k len) := by
  have henlarge : ∀ n nblks, Moves (Same SfsFs.counts) (sfsTruncEnlarge k nblks n) := by
    intro n
    induction n with
    | zero => exact fun _ ↦ Moves.pure _
    | succ n ih => exact fun _ ↦ (moves_sfsBmapLoadNolock _ _).bind fun _ ↦ ih _
  have hreduce : ∀ n, Moves (Same SfsFs.counts) (sfsTruncReduce k n) := by
    intro n
    induction n with
    | zero => exact Moves.pure _
    | succ n ih => exact (moves_sfsBmapTruncateNolock _).bind fun _ ↦ ih
  refine Moves.ite (fun _ ↦ Moves.fail _) fun _ ↦ moves_getSin fun sin ↦ .of_moves ?_
  refine Moves.ite (fun _ ↦ Moves.assert _) fun _ ↦ ?_
  refine (Moves.ite (fun _ ↦ henlarge _ _) fun _ ↦ hreduce _).bind fun _ ↦ ?_
  exact moves_getSin fun _ ↦ .bind (Moves.assert _) fun _ ↦ .putSin rfl

theorem moves_vopTruncate (k : ℕ) (len : ℤ) : Moves (Same SfsFs.counts) (vopTruncate k len) :=
  moves_getSin fun _ ↦ .of_moves ((Moves.assert _).bind fun _ ↦ moves_sfsTruncfile k len)

theorem moves_sfsFsync (k : ℕ) : Moves (Same SfsFs.counts) (sfsFsync k) := by
  refine moves_getSin fun sin ↦ ?_
  split
  · refine .bindAt (.putSin rfl) fun _ ↦ ?_
    refine ((moves_sfsWbuf _ _ _ _ _).onError ?_).bind fun _ ↦ Moves.pure _
    exact moves_getSin fun _ ↦ .putSin rfl
  · exact .of_moves (Moves.pure _)

theorem moves_sfsDirentReadNolock (k slot : ℕ) :
    Moves (Same SfsFs.counts) (sfsDirentReadNolock k slot) :=
  moves_getSin fun _ ↦ .of_moves <| (Moves.assert _).bind fun _ ↦
    (moves_sfsBmapLoadNolock _ _).bind fun ino ↦ (moves_sfsBlockInuse ino).bind fun _ ↦
      (Moves.assert _).bind fun _ ↦ (moves_sfsRbuf _ _ _ _ _).bind fun _ ↦ Moves.pure _

theorem moves_sfsDirentSearchNolock (k : ℕ) (name : List UInt8) :
    Moves (Same SfsFs.counts) (sfsDirentSearchNolock k name) := by
  have hloop : ∀ n i, Moves (Same SfsFs.counts) (sfsDirentSearchLoop k name i n) := by
    intro n
    induction n with
    | zero => exact fun _ ↦ Moves.fail _
    | succ n ih =>
      exact fun i ↦ (moves_sfsDirentReadNolock k i).bind fun _ ↦
        Moves.ite (fun _ ↦ ih _) fun _ ↦ Moves.ite (fun _ ↦ Moves.pure _) fun _ ↦ ih _
  exact (Moves.assert _).bind fun _ ↦ moves_getSin fun _ ↦ .of_moves (hloop _ _)

end Counts

/-! ## Reclaiming -/

section Reclaim

variable {s : SfsFs} {k : ℕ}

theorem SfsFs.counts_removeLinks (s : SfsFs) (k : ℕ) :
    (s.removeLinks k).counts = Function.update s.counts k (0, 0) := by
  funext j
  by_cases hj : j = k
  · have hnone : (s.removeLinks k).inodes j = none := hj ▸ Function.update_self ..
    rw [SfsFs.counts, hnone, hj, Function.update_self]
  · have hsame : (s.removeLinks k).inodes j = s.inodes j := Function.update_of_ne hj ..
    rw [SfsFs.counts, hsame, Function.update_of_ne hj, SfsFs.counts]

/-- `sfs_block_free` does not fail. -/
theorem sfsBlockFree_sat (ino : ℕ) (s : SfsFs) :
    ((sfsBlockFree ino).run s).Sat (fun _ t ↦ Same SfsFs.counts s t) fun _ _ ↦ False := by
  have hmoves := moves_sfsBlockFree ino s
  cases hrun : (sfsBlockFree ino).run s with
  | ok a t =>
    rw [hrun] at hmoves
    exact hmoves
  | panic => trivial
  | error e t =>
    exfalso
    have hnever : ((sfsBlockFree ino).run s).Sat (fun _ _ ↦ True) fun _ _ ↦ False := by
      rw [sfsBlockFree]
      refine @sat_bind _ _ _ _ _ _ _ _ _ (fun _ _ ↦ True) ?_ fun _ t _ ↦ sat_assert_bind fun _ ↦ ?_
      · rw [sfsBlockInuse, get_bind_run]
        split
        · refine @sat_bind _ _ _ _ _ _ _ _ _ (fun _ _ ↦ True) ?_ fun _ _ _ ↦ trivial
          rw [onFreemap, run_zoom, bitmapTest, get_bind_run]
          by_cases hlt : ino < s.freemap.nbits
          · rw [assert_bind_run hlt]
            trivial
          · rw [assert_bind_run_neg hlt]
            trivial
        · trivial
      · refine @sat_bind _ _ _ _ _ _ _ _ _ (fun _ _ ↦ True) ?_ fun _ _ _ ↦ trivial
        rw [onFreemap, run_zoom, bitmapFree, get_bind_run]
        by_cases hlt : ino < t.freemap.nbits
        · rw [assert_bind_run hlt]
          by_cases hbit : t.freemap.map (ino / wordBits) &&& bitMask (ino % wordBits) = 0
          · rw [assert_bind_run hbit]
            trivial
          · rw [assert_bind_run_neg hbit]
            trivial
        · rw [assert_bind_run_neg hlt]
          trivial
    rw [hrun] at hnever
    exact hnever

/-- An inode that is taken out of memory had no counts any more. -/
theorem moves_sfsReclaim (k : ℕ) : Moves (Same SfsFs.counts) (sfsReclaim k) := by
  have hsync : Moves (Same SfsFs.counts) (sfsReclaimSync k) :=
    moves_getSin fun _ ↦ .of_moves (Moves.ite (fun _ ↦ moves_sfsFsync k) fun _ ↦ Moves.pure _)
  have hkill : Moves (Same SfsFs.counts) (sfsReclaimKill k) := by
    refine moves_getSin fun sin s hs ↦ ?_
    rw [modify_bind_run]
    -- the counts are compared with 0 after the inode has left memory
    have hblocks : ((sfsReclaimBlocks k sin).run (s.removeLinks k)).Sat
        (fun _ t ↦ Same SfsFs.counts (s.removeLinks k) t) fun _ _ ↦ False := by
      rw [sfsReclaimBlocks]
      split
      · refine sat_bind (sfsBlockFree_sat k _) fun _ t ht ↦ ?_
        split
        · exact (sfsBlockFree_sat _ t).imp (fun _ _ hu ↦ Eq.trans hu ht) fun _ _ hu ↦ hu
        · exact ht
      · exact Eq.refl (SfsFs.counts _)
    refine sat_bind (hblocks.imp (fun _ _ h ↦ h) fun _ _ h ↦ h.elim) fun _ t ht ↦ ?_
    by_cases hzero : sin.refCount = 0 ∧ sin.openCount = 0
    · rw [run_assert hzero]
      rw [hzero.1, hzero.2] at hs
      change t.counts = s.counts
      rw [show t.counts = (s.removeLinks k).counts from ht, SfsFs.counts_removeLinks, ← hs,
        Function.update_eq_self]
    · rw [run_assert_neg hzero]
      trivial
  refine moves_getSin fun sin ↦ .bind (Moves.assert _) fun _ ↦ .bindAt (.putSin rfl) fun _ ↦ ?_
  refine Moves.ite (fun _ ↦ Moves.fail _) fun _ ↦ Moves.ite (fun _ ↦ ?_) fun _ ↦ ?_
  · exact (moves_vopTruncate k 0).bind fun _ ↦ hsync.bind fun _ ↦ hkill
  · exact hsync.bind fun _ ↦ hkill

end Reclaim

end Ucore
