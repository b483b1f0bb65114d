import Ucore.Mksfs.Append

/-!
# Building an image

What each call of `open_dir` does to the image: a file's chunks and a directory's entries go to
blocks that were just handed out, in order, and what was there before stays. `Grown` is what a run
leaves alone, and `Built` is its invariant: the numbers and the inodes in memory are in order
(`MkOk`), the root is a directory, and the blocks of every directory hold its entries.

## From blocks to files

Storing a block is `write_block` followed by `append_block` (`store_cases`): the data is padded with
zeros to a block, the number of the block is appended to the inode, and up to two cache blocks are
made. A file is the sequence of its chunks, by induction over the loop of `open_file`; an entry is
one block of the directory, of which `add_entry` writes 256 bytes from a static buffer. Every call
may fail for lack of space, and then nothing is claimed of the image, as `bug` ends the program.

The log of a run (`MkLog`) has the blocks of each inode and the entries of each directory, in order.
What a run adds to a directory is the list of the calls of `add_entry` for it (`runOps_sat`).
-/

namespace Ucore

open Bytes Prog

/-! ## Writing a block -/

/-- Replace the contents of a block of the image. -/
def MkSfs.setImg (s : MkSfs) (b : ℕ) (blk : Bytes) : MkSfs :=
  { s with img := Function.update s.img b blk }

/-- The block starts with `len` bytes of `data`, and the rest of it is zero. -/
structure Padded (blk data : Bytes) (len : ℕ) : Prop where
  data : ∀ i < len, blk i = data i
  tail : ∀ i, len ≤ i → i < 4096 → blk i = 0

section Write

variable {s : MkSfs} {L : MkLog} {owner : ℕ → ℕ} {k b len : ℕ} {ci : CacheInode} {data : Bytes}

theorem MkSfs.setImg_img_self (s : MkSfs) (b : ℕ) (blk : Bytes) : (s.setImg b blk).img b = blk :=
  Function.update_self ..

theorem MkSfs.setImg_img_of_ne (s : MkSfs) {b c : ℕ} (h : c ≠ b) (blk : Bytes) :
    (s.setImg b blk).img c = s.img c :=
  Function.update_of_ne h ..

theorem writeBlock_eq (data : Bytes) (hlen : len ≤ 4096) (hb : b < s.ninos) :
    ∃ blk, (writeBlock data len b).run s = .ok () (s.setImg b blk) ∧ Padded blk data len := by
  rw [writeBlock, get_bind_run, assert_bind_run ⟨by rw [sfsBlksize_eq]; exact hlen, hb⟩,
    sfsBlksize_eq]
  by_cases hfull : len = 4096
  · rw [if_neg (not_not.mpr hfull)]
    refine ⟨_, rfl, fun i hi ↦ ?_, fun i hi hi' ↦ absurd (hfull ▸ hi) (not_le.mpr hi')⟩
    rw [memcpy_of_mem (Nat.zero_le i) (by omega), Nat.zero_add, Nat.sub_zero]
  · rw [if_pos hfull]
    refine ⟨_, rfl, fun i hi ↦ ?_, fun i hi hi' ↦ ?_⟩
    · rw [memcpy_of_mem (Nat.zero_le i) (by omega), Nat.zero_add, Nat.sub_zero,
        memcpy_of_mem (Nat.zero_le i) (by omega), Nat.zero_add, Nat.sub_zero]
    · rw [memcpy_of_mem (Nat.zero_le i) (by omega), Nat.zero_add, Nat.sub_zero,
        memcpy_of_notMem (by omega), zero_apply]

/-- The invariant does not look at the image. -/
theorem MkOk.setImg (h : MkOk s L owner) (b : ℕ) (blk : Bytes) : MkOk (s.setImg b blk) L owner :=
  { h with }

/-- What storing one block of data in inode `k` did. -/
structure Stored (s s' : MkSfs) (L : MkLog) (owner' : ℕ → ℕ) (k : ℕ) (ci : CacheInode)
    (data : Bytes) (len : ℕ) : Prop where
  ok : MkOk s' (L.append k s.nextIno) owner'
  ninos : s'.ninos = s.ninos
  info : s'.info = s.info
  entry : s'.entry = s.entry
  lt_next : s.nextIno < s'.nextIno
  next_le : s'.nextIno ≤ s.nextIno + 3
  img : ∀ b ≠ s.nextIno, s'.img b = s.img b
  data : Padded (s'.img s.nextIno) data len
  inode : ∃ ci', s'.inodes k = some ci' ∧ ci'.inode.type = ci.inode.type ∧
    ci'.inode.nlinks = ci.inode.nlinks
  others : ∀ j ≠ k, s'.inodes j = s.inodes j

/-- The three calls that store a block of data in inode `k`: a number is taken, the block is
written, and it is appended to the inode. -/
theorem store_cases (h : MkOk s L owner) (hk : s.inodes k = some ci) (data : Bytes)
    (hlen : len ≤ 4096) (hroom : s.nextIno < s.ninos) :
    sfsAllocIno.run s = .ok s.nextIno s.take ∧
      ∃ t, (writeBlock data len s.nextIno).run s.take = .ok () t ∧
        ((∃ s' owner', (appendBlock k len s.nextIno).run t = .ok () s' ∧
          Stored s s' L owner' k ci data len) ∨
        (∃ s', (appendBlock k len s.nextIno).run t = .error .outOfDiskSpace s' ∧
          s.ninos ≤ s.nextIno + 2) ∨
        (appendBlock k len s.nextIno).run t = .error .fileTooBig t ∧
          32768 ≤ (L.stored k).length) := by
  obtain ⟨blk, hwrite, hdata⟩ := writeBlock_eq data hlen (show s.nextIno < s.take.ninos from hroom)
  have hok : MkOk (s.take.setImg s.nextIno blk) L owner := (h.take hroom).setImg _ _
  have hfresh : Fresh (s.take.setImg s.nextIno blk) L s.nextIno := { h.fresh_take with }
  refine ⟨sfsAllocIno_eq hroom, _, hwrite, ?_⟩
  rcases appendBlock_cases hok hk hfresh hlen with ⟨s', owner', hrun, hok', happ⟩ | hfull | hbig
  · refine .inl ⟨s', owner', hrun, ⟨hok', happ.frame.ninos, happ.frame.info, happ.frame.entry,
      happ.frame.le_next, happ.frame.next_le, fun b hb ↦ ?_, ?_, happ.inode, happ.others⟩⟩
    · rw [happ.frame.img]
      exact s.take.setImg_img_of_ne hb blk
    · rw [happ.frame.img, s.take.setImg_img_self]
      exact hdata
  · exact .inr (.inl hfull)
  · exact .inr (.inr hbig)

end Write

/-! ## Runs -/

/-- What building goes on to leave alone: the blocks handed out before and those not handed out yet,
the types of inodes, and the blocks of files and links. -/
structure Grown (s s' : MkSfs) (L L' : MkLog) : Prop where
  ninos : s'.ninos = s.ninos
  info : s'.info = s.info
  le_next : s.nextIno ≤ s'.nextIno
  img : ∀ b < s.nextIno, s'.img b = s.img b
  above : ∀ b, s'.nextIno ≤ b → s'.img b = s.img b
  inode : ∀ k ci, s.inodes k = some ci →
    ∃ ci', s'.inodes k = some ci' ∧ ci'.inode.type = ci.inode.type
  stored : ∀ k ci, s.inodes k = some ci → ci.inode.type ≠ sfsTypeDir → L'.stored k = L.stored k

/-- The block has this directory entry, as far as `add_entry` wrote it. -/
structure EntryBlock (blk : Bytes) (e : ℕ × CStr) : Prop where
  ino : read32 blk 0 = e.1
  ino_ne : e.1 ≠ 0
  name : ∀ i (hi : i < e.2.1.length), i < 252 → blk (4 + i) = e.2.1[i]
  stop : e.2.1.length < 252 → blk (4 + e.2.1.length) = 0
  tail : ∀ i, 256 ≤ i → i < 4096 → blk i = 0
  length_le : e.2.1.length ≤ 255

/-- The invariant of a run, with the root and the entries of directories. -/
structure Built (s : MkSfs) (L : MkLog) (owner : ℕ → ℕ) : Prop where
  ok : MkOk s L owner
  root : ∃ ci, s.inodes sfsBlknRoot = some ci ∧ ci.inode.type = sfsTypeDir
  dirs : ∀ k ci, s.inodes k = some ci → ci.inode.type = sfsTypeDir →
    List.Forall₂ (fun b e ↦ EntryBlock (s.img b) e) (L.stored k) (L.entries k)
  files : ∀ k, (∀ ci, s.inodes k = some ci → ci.inode.type ≠ sfsTypeDir) → L.entries k = []

theorem Grown.refl (s : MkSfs) (L : MkLog) : Grown s s L L :=
  ⟨rfl, rfl, le_rfl, fun _ _ ↦ rfl, fun _ _ ↦ rfl, fun _ ci h ↦ ⟨ci, h, rfl⟩, fun _ _ _ _ ↦ rfl⟩

theorem Grown.trans {s t u : MkSfs} {L M N : MkLog} (h : Grown s t L M) (h' : Grown t u M N) :
    Grown s u L N where
  ninos := h'.ninos.trans h.ninos
  info := h'.info.trans h.info
  le_next := h.le_next.trans h'.le_next
  img b hb := (h'.img b (hb.trans_le h.le_next)).trans (h.img b hb)
  above b hb := (h'.above b hb).trans (h.above b (h'.le_next.trans hb))
  inode k ci hk := by
    obtain ⟨ci', hk', htype⟩ := h.inode k ci hk
    obtain ⟨ci'', hk'', htype'⟩ := h'.inode k ci' hk'
    exact ⟨ci'', hk'', htype'.trans htype⟩
  stored k ci hk hne := by
    obtain ⟨ci', hk', htype⟩ := h.inode k ci hk
    exact (h'.stored k ci' hk' (htype ▸ hne)).trans (h.stored k ci hk hne)

/-- One more entry was added to directory `k`. -/
def MkLog.addEntries (L : MkLog) (k : ℕ) (es : List (ℕ × CStr)) : MkLog :=
  { L with entries := Function.update L.entries k (L.entries k ++ es) }

section Steps

variable {s s' : MkSfs} {L : MkLog} {owner owner' : ℕ → ℕ} {k : ℕ} {ci : CacheInode} {data : Bytes}
  {len : ℕ}

theorem MkLog.addEntries_self (L : MkLog) (k : ℕ) (es : List (ℕ × CStr)) :
    (L.addEntries k es).entries k = L.entries k ++ es := Function.update_self ..

theorem MkLog.addEntries_of_ne (L : MkLog) {j k : ℕ} (h : j ≠ k) (es : List (ℕ × CStr)) :
    (L.addEntries k es).entries j = L.entries j := Function.update_of_ne h ..

/-- The invariant of the layout does not look at the entries. -/
theorem MkOk.addEntries (h : MkOk s L owner) (k : ℕ) (es : List (ℕ × CStr)) :
    MkOk s (L.addEntries k es) owner := { h with }

theorem MkOk.setEntry (h : MkOk s L owner) (b : Bytes) : MkOk { s with entry := b } L owner :=
  { h with }

theorem EntryBlock.congr {blk blk' : Bytes} {e : ℕ × CStr} (h : EntryBlock blk e)
    (heq : blk' = blk) : EntryBlock blk' e := heq ▸ h

/-- The entries of a directory stay where its blocks stay. -/
theorem entries_congr {img img' : ℕ → Bytes} {bs : List ℕ} {es : List (ℕ × CStr)}
    (h : List.Forall₂ (fun b e ↦ EntryBlock (img b) e) bs es) (himg : ∀ b ∈ bs, img' b = img b) :
    List.Forall₂ (fun b e ↦ EntryBlock (img' b) e) bs es :=
  ((List.forall₂_and_left _ _).mpr ⟨himg, h⟩).imp fun _ _ hbe ↦ hbe.2.congr hbe.1

/-- What the inodes before a block was stored in `k` have to do with those after it. -/
theorem Stored.inode_cases (hst : Stored s s' L owner' k ci data len) (hk : s.inodes k = some ci)
    (j : ℕ) : (∀ cj, s.inodes j = some cj →
        ∃ cj', s'.inodes j = some cj' ∧ cj'.inode.type = cj.inode.type) ∧
      ∀ cj, s'.inodes j = some cj →
        ∃ cj', s.inodes j = some cj' ∧ cj'.inode.type = cj.inode.type := by
  obtain ⟨ci', hk', htype, -⟩ := hst.inode
  by_cases hjk : j = k
  · subst hjk
    rw [hk, hk']
    exact ⟨fun cj hj ↦ ⟨ci', rfl, Option.some.inj hj ▸ htype⟩,
      fun cj hj ↦ ⟨ci, rfl, Option.some.inj hj ▸ htype.symm⟩⟩
  · rw [hst.others j hjk]
    exact ⟨fun cj hj ↦ ⟨cj, hj, rfl⟩, fun cj hj ↦ ⟨cj, hj, rfl⟩⟩

/-- After one block was stored in inode `k` the invariant holds again. A directory gets an entry for
it, other inodes do not. -/
theorem Built.store (h : Built s L owner) (hk : s.inodes k = some ci)
    (hst : Stored s s' L owner' k ci data len) (es : List (ℕ × CStr))
    (hdir : ci.inode.type = sfsTypeDir →
      List.Forall₂ (fun b e ↦ EntryBlock (s'.img b) e) [s.nextIno] es)
    (hfile : ci.inode.type ≠ sfsTypeDir → es = []) :
    Built s' ((L.append k s.nextIno).addEntries k es) owner' := by
  refine ⟨hst.ok.addEntries k es, ?_, fun j cj hj hd ↦ ?_, fun j hj ↦ ?_⟩
  · obtain ⟨cr, hr, hd⟩ := h.root
    obtain ⟨cr', hr', htype⟩ := (hst.inode_cases hk sfsBlknRoot).1 cr hr
    exact ⟨cr', hr', htype.trans hd⟩
  · obtain ⟨cj', hj', htype⟩ := (hst.inode_cases hk j).2 cj hj
    have hentries := entries_congr (h.dirs j cj' hj' (htype.trans hd))
      fun b hb ↦ hst.img b (h.ok.data_lt j b hb).2.ne
    by_cases hjk : j = k
    · subst hjk
      rw [hk] at hj'
      obtain rfl := Option.some.inj hj'
      rw [MkLog.addEntries_self]
      exact (L.append_stored_self j _).symm ▸ List.rel_append hentries (hdir (htype.trans hd))
    · rw [MkLog.addEntries_of_ne _ hjk]
      exact (L.append_stored_of_ne hjk s.nextIno).symm ▸ hentries
  · have hold : ∀ cj, s.inodes j = some cj → cj.inode.type ≠ sfsTypeDir := fun cj hcj ↦ by
      obtain ⟨cj', hj', htype⟩ := (hst.inode_cases hk j).1 cj hcj
      exact htype ▸ hj cj' hj'
    by_cases hjk : j = k
    · subst hjk
      rw [MkLog.addEntries_self, hfile (hold ci hk), List.append_nil]
      exact h.files j hold
    · rw [MkLog.addEntries_of_ne _ hjk]
      exact h.files j hold

/-- Storing a block in a directory, or in an inode that was not there at first, leaves the rest. -/
theorem Grown.store {s₀ : MkSfs} {L₀ : MkLog} (h : Grown s₀ s L₀ L) (hk : s.inodes k = some ci)
    (hst : Stored s s' L owner' k ci data len) (es : List (ℕ × CStr))
    (hnew : ci.inode.type = sfsTypeDir ∨ s₀.inodes k = none) :
    Grown s₀ s' L₀ ((L.append k s.nextIno).addEntries k es) where
  ninos := hst.ninos.trans h.ninos
  info := hst.info.trans h.info
  le_next := h.le_next.trans hst.lt_next.le
  img b hb := (hst.img b (hb.trans_le h.le_next).ne).trans (h.img b hb)
  above b hb := (hst.img b (hst.lt_next.trans_le hb).ne').trans
    (h.above b (hst.lt_next.le.trans hb))
  inode j cj hj := by
    obtain ⟨cj', hj', htype⟩ := h.inode j cj hj
    obtain ⟨cj'', hj'', htype'⟩ := (hst.inode_cases hk j).1 cj' hj'
    exact ⟨cj'', hj'', htype'.trans htype⟩
  stored j cj hj hne := by
    have hjk : j ≠ k := by
      rintro rfl
      rcases hnew with hd | hnone
      · obtain ⟨cj', hj', htype⟩ := h.inode j cj hj
        rw [hk] at hj'
        obtain rfl := Option.some.inj hj'
        exact hne (htype.symm.trans hd)
      · rw [hnone] at hj
        cases hj
    exact (L.append_stored_of_ne hjk _).trans (h.stored j cj hj hne)

/-! ## New inodes -/

/-- `alloc_cache_inode` made inode `k`. -/
def MkSfs.addInode (s : MkSfs) (k real type : ℕ) : MkSfs :=
  { s.setCi k
    { inode := ⟨0, type, 0, 0, fun _ ↦ 0, 0, 0⟩, real := real, ino := k, nblks := 0, l1 := none,
      l2 := none } with
    inodeTable := Function.update s.inodeTable (hash32 real) (k :: s.inodeTable (hash32 real)) }

theorem MkSfs.addInode_inodes_of_ne (s : MkSfs) {j k : ℕ} (h : j ≠ k) (real type : ℕ) :
    (s.addInode k real type).inodes j = s.inodes j := Function.update_of_ne h ..

theorem allocCacheInode_eq (real type : ℕ) (hroom : s.nextIno < s.ninos) :
    (allocCacheInode real 0 type).run s = .ok s.nextIno (s.take.addInode s.nextIno real type) := by
  rw [allocCacheInode, if_neg (not_not.mpr rfl), bind_of_ok (sfsAllocIno_eq hroom)]
  rfl

theorem allocCacheInode_full (real type : ℕ) (hfull : ¬s.nextIno < s.ninos) :
    (allocCacheInode real 0 type).run s = .error .outOfDiskSpace s := by
  rw [allocCacheInode, if_neg (not_not.mpr rfl), bind_of_error (sfsAllocIno_full hfull)]

/-- An inode without blocks. -/
theorem Layout.nil (cache : ℕ → Option Bytes) (owner : ℕ → ℕ) (k real type : ℕ) :
    Layout cache owner k ⟨⟨0, type, 0, 0, fun _ ↦ 0, 0, 0⟩, real, k, 0, none, none⟩ [] where
  nblks := rfl
  blocks := rfl
  length_le := Nat.zero_le _
  direct i n hn := by
    rw [List.getElem?_nil] at hn
    cases hn
  noIndirect _ := rfl
  slots hlt := absurd hlt (Nat.not_lt_zero _)
  l1 hlt := absurd hlt (Nat.not_lt_zero _)
  noDb _ := rfl
  db hlt := absurd hlt (Nat.not_lt_zero _)

theorem MkOk.addInode (h : MkOk s L owner) (hk : Fresh s L k) (real type : ℕ) :
    MkOk (s.addInode k real type) L owner := by
  exact { h with
    inode_lt := fun j cj hj ↦ by
      by_cases hjk : j = k
      · subst hjk
        exact .inr ⟨hk.first_le, hk.lt⟩
      · rw [s.addInode_inodes_of_ne hjk] at hj
        exact h.inode_lt j cj hj
    cache_inode := fun c b hc ↦ by
      have hck : c ≠ k := by
        rintro rfl
        cases hk.cache.symm.trans hc
      rw [s.addInode_inodes_of_ne hck]
      exact h.cache_inode c b hc
    data_free := fun j b hb ↦ by
      have hbk : b ≠ k := fun hbk ↦ hk.stored j (hbk ▸ hb)
      rw [s.addInode_inodes_of_ne hbk]
      exact h.data_free j b hb
    stored_nil := fun j hj ↦ by
      by_cases hjk : j = k
      · exact h.stored_nil j (hjk ▸ hk.inodes)
      · rw [s.addInode_inodes_of_ne hjk] at hj
        exact h.stored_nil j hj
    inodeTable := fun j ↦ by
      refine Iff.trans ?_ ((or_congr_right (h.inodeTable j)).trans
        (inTable_cons (hash32_lt real)).symm)
      by_cases hjk : j = k
      · subst hjk
        exact ⟨fun _ ↦ .inl rfl, fun _ ↦ ⟨_, s.setCi_inodes_self j _⟩⟩
      · rw [s.addInode_inodes_of_ne hjk]
        exact ⟨.inr, fun hor ↦ hor.resolve_left hjk⟩
    ino := fun j cj hj ↦ by
      by_cases hjk : j = k
      · subst hjk
        obtain rfl := Option.some.inj ((s.setCi_inodes_self j _).symm.trans hj)
        rfl
      · rw [s.addInode_inodes_of_ne hjk] at hj
        exact h.ino j cj hj
    layout := fun j cj hj ↦ by
      by_cases hjk : j = k
      · subst hjk
        obtain rfl := Option.some.inj ((s.setCi_inodes_self j _).symm.trans hj)
        rw [h.stored_nil j hk.inodes]
        exact Layout.nil _ _ j real type
      · rw [s.addInode_inodes_of_ne hjk] at hj
        exact h.layout j cj hj }

/-- A new inode keeps the invariant, and is new. -/
theorem Built.addInode (h : Built s L owner) (hroom : s.nextIno < s.ninos) (real type : ℕ) :
    Built (s.take.addInode s.nextIno real type) L owner ∧
      Grown s (s.take.addInode s.nextIno real type) L L ∧ s.inodes s.nextIno = none := by
  have hnone := h.ok.fresh_take.inodes
  have hold : ∀ j cj, s.inodes j = some cj →
      (s.take.addInode s.nextIno real type).inodes j = some cj := by
    intro j cj hj
    have hjk : j ≠ s.nextIno := by
      rintro rfl
      cases hnone.symm.trans hj
    exact (s.take.addInode_inodes_of_ne hjk real type).trans hj
  refine ⟨⟨(h.ok.take hroom).addInode h.ok.fresh_take real type, ?_, fun j cj hj hd ↦ ?_,
    fun j hj ↦ h.files j fun cj hcj ↦ hj cj (hold j cj hcj)⟩,
    ⟨rfl, rfl, Nat.le_succ _, fun _ _ ↦ rfl, fun _ _ ↦ rfl, fun j cj hj ↦ ⟨cj, hold j cj hj, rfl⟩,
      fun _ _ _ _ ↦ rfl⟩, hnone⟩
  · obtain ⟨cr, hr, hd⟩ := h.root
    exact ⟨cr, hold _ cr hr, hd⟩
  · by_cases hjk : j = s.nextIno
    · subst hjk
      rw [h.ok.stored_nil _ hnone, h.files _ fun cj hcj ↦ by cases hnone.symm.trans hcj]
      exact .nil
    · exact h.dirs j cj ((s.take.addInode_inodes_of_ne hjk real type).symm.trans hj) hd

theorem MkLog.addEntries_nil (L : MkLog) (k : ℕ) : L.addEntries k [] = L := by
  rw [MkLog.addEntries, List.append_nil, Function.update_eq_self]

/-! ## Files and links -/

/-- The chunks of a file from `j` on were stored in the blocks `bs` and appended to inode `k`. -/
structure FileStored (s s' : MkSfs) (L L' : MkLog) (k : ℕ) (data : List UInt8) (j : ℕ)
    (bs : List ℕ) : Prop where
  stored : L'.stored k = L.stored k ++ bs
  entries : L'.entries = L.entries
  data : ∀ i (hi : i < bs.length),
    Padded (s'.img bs[i]) (ofList (chunk data (j + i))) (chunk data (j + i)).length
  img : ∀ b < s.nextIno, s'.img b = s.img b
  le_next : s.nextIno ≤ s'.nextIno
  ninos : s'.ninos = s.ninos

theorem FileStored.nil (s : MkSfs) (L : MkLog) (k : ℕ) (data : List UInt8) (j : ℕ) :
    FileStored s s L L k data j [] where
  stored := (List.append_nil _).symm
  entries := rfl
  data _ hi := absurd hi (Nat.not_lt_zero _)
  img _ _ := rfl
  le_next := le_rfl
  ninos := rfl

theorem FileStored.cons {t : MkSfs} {L' : MkLog} {data : List UInt8} {j : ℕ} {bs : List ℕ}
    (hst : Stored s t L owner k ci (ofList (chunk data j)) (chunk data j).length)
    (h : FileStored t s' (L.append k s.nextIno) L' k data (j + 1) bs) :
    FileStored s s' L L' k data j (s.nextIno :: bs) where
  stored := by
    rw [h.stored, L.append_stored_self, List.append_assoc]
    rfl
  entries := h.entries
  data i hi := by
    cases i with
    | zero =>
      rw [List.getElem_cons_zero, h.img _ hst.lt_next]
      exact hst.data
    | succ i =>
      rw [List.getElem_cons_succ, ← Nat.add_assoc, Nat.add_right_comm]
      exact h.data i _
  img b hb := (h.img b (hb.trans hst.lt_next)).trans (hst.img b hb.ne)
  le_next := hst.lt_next.le.trans h.le_next
  ninos := h.ninos.trans hst.ninos

theorem length_chunk_le (data : List UInt8) (j : ℕ) : (chunk data j).length ≤ 4096 := by
  rw [chunk]
  exact List.length_take_le ..

/-- The loop of `open_file` stores the chunks, unless the image or the file is full. `s₀` is a state
in which inode `k` was not there yet. -/
theorem openFileLoop_cases {s₀ : MkSfs} {L₀ : MkLog} (data : List UInt8) (n j last : ℕ)
    (h : Built s L owner) (hk : s.inodes k = some ci) (htype : ci.inode.type ≠ sfsTypeDir)
    (h₀ : Grown s₀ s L₀ L) (hnone : s₀.inodes k = none) (hlast : 0 < n → last = 4096)
    (hfull : ∀ i, i + 1 < n → (chunk data (j + i)).length = 4096) :
    (∃ bs s' L' owner' ci', (openFileLoop k data j last n).run s = .ok bs s' ∧ Built s' L' owner' ∧
      Grown s₀ s' L₀ L' ∧ FileStored s s' L L' k data j bs ∧ bs.length = n ∧
      s'.inodes k = some ci' ∧ ci'.inode.type = ci.inode.type) ∨
    ∃ e s', (openFileLoop k data j last n).run s = .error e s' ∧
      (s.ninos < s.nextIno + 3 * n ∨ 32768 < (L.stored k).length + n) := by
  induction n generalizing s L owner ci j last with
  | zero => exact .inl ⟨[], s, L, owner, ci, rfl, h, h₀, .nil s L k data j, rfl, hk, rfl⟩
  | succ n ih =>
    have hassert : last = sfsBlksize := hlast (Nat.succ_pos n)
    rw [openFileLoop, assert_bind_run hassert]
    by_cases hroom : s.nextIno < s.ninos
    swap
    · exact .inr ⟨_, s, bind_of_error (sfsAllocIno_full hroom) _, .inl (by omega)⟩
    obtain ⟨halloc, t, hwrite, hcases⟩ := store_cases h.ok hk (ofList (chunk data j))
      (length_chunk_le data j) hroom
    rw [bind_of_ok halloc, bind_of_ok hwrite]
    rcases hcases with ⟨u, owner', happ, hst⟩ | ⟨u, happ, hspace⟩ | ⟨happ, hbig⟩
    · have hu := h.store hk hst [] (fun hd ↦ absurd hd htype) fun _ ↦ rfl
      have hgrown := h₀.store hk hst [] (.inr hnone)
      rw [MkLog.addEntries_nil] at hu hgrown
      obtain ⟨ci', hk', htype', -⟩ := hst.inode
      have hlast' : 0 < n → (chunk data j).length = 4096 := fun hn ↦ hfull 0 (by omega)
      have hfull' : ∀ i, i + 1 < n → (chunk data (j + 1 + i)).length = 4096 := fun i hi ↦ by
        rw [Nat.add_assoc, Nat.add_comm 1 i]
        exact hfull (i + 1) (by omega)
      rw [bind_of_ok happ]
      rcases ih (j + 1) (chunk data j).length hu hk' (htype' ▸ htype) hgrown hlast' hfull' with
        ⟨bs, s', L', owner'', ci'', hrun, hb, hg, hfs, hlen, hk'', htype''⟩ | ⟨e, s', hrun, hspace⟩
      · refine .inl ⟨s.nextIno :: bs, s', L', owner'', ci'', ?_, hb, hg, hfs.cons hst, ?_, hk'',
          htype''.trans htype'⟩
        · rw [bind_of_ok hrun, run_pure]
        · rw [List.length_cons, hlen]
      · refine .inr ⟨e, s', bind_of_error hrun _, ?_⟩
        have := hst.ninos
        have := hst.next_le
        rw [L.append_stored_self, List.length_append, List.length_singleton] at hspace
        omega
    · exact .inr ⟨_, u, bind_of_error happ _, .inl (by omega)⟩
    · exact .inr ⟨_, t, bind_of_error happ _, .inr (by omega)⟩

/-- The number of chunks `open_file` writes. -/
def fileChunks (data : List UInt8) : ℕ := (data.length + (sfsBlksize - 1)) / sfsBlksize

theorem length_chunk (data : List UInt8) {j : ℕ} (hj : j + 1 < fileChunks data) :
    (chunk data j).length = 4096 := by
  rw [fileChunks, sfsBlksize_eq] at hj
  rw [chunk, List.length_take, List.length_drop]
  omega

/-- `add_file` on a file that was not seen before makes an inode for it and stores its chunks,
unless the image or the file is full. -/
theorem newFile_cases (h : Built s L owner) (real : ℕ) (data : List UInt8) :
    (∃ k bs s' L' owner' ci', (newFile real data).run s = .ok (k, bs) s' ∧ Built s' L' owner' ∧
      Grown s s' L L' ∧ L'.entries = L.entries ∧ L'.stored k = bs ∧
      (∀ i (hi : i < bs.length),
        Padded (s'.img bs[i]) (ofList (chunk data i)) (chunk data i).length) ∧
      bs.length = fileChunks data ∧ s'.inodes k = some ci' ∧ ci'.inode.type = sfsTypeFile) ∨
    ∃ e s', (newFile real data).run s = .error e s' ∧
      (s.ninos ≤ s.nextIno + 3 * fileChunks data ∨ 32768 < fileChunks data) := by
  rw [newFile]
  by_cases hroom : s.nextIno < s.ninos
  swap
  · exact .inr ⟨_, s, bind_of_error (allocCacheInode_full real _ hroom) _, .inl (by omega)⟩
  obtain ⟨hb, hg, hnone⟩ := h.addInode hroom real sfsTypeFile
  have hstored : L.stored s.nextIno = [] := h.ok.stored_nil _ hnone
  rw [bind_of_ok (allocCacheInode_eq real sfsTypeFile hroom)]
  rcases openFileLoop_cases data (fileChunks data) 0 sfsBlksize hb
    (MkSfs.setCi_inodes_self s.take s.nextIno _) (show sfsTypeFile ≠ sfsTypeDir by decide) hg hnone
    (fun _ ↦ sfsBlksize_eq) (fun i hi ↦ length_chunk data (by omega)) with
    ⟨bs, s', L', owner', ci', hrun, hb', hg', hfs, hlen, hk', htype⟩ | ⟨e, s', hrun, hspace⟩
  · refine .inl ⟨s.nextIno, bs, s', L', owner', ci', ?_, hb', hg', hfs.entries, ?_, fun i hi ↦ ?_,
      hlen, hk', htype⟩
    · rw [openFile, ← fileChunks, bind_of_ok hrun, run_pure]
    · rw [hfs.stored, hstored, List.nil_append]
    · have hdata := hfs.data i hi
      rwa [Nat.zero_add] at hdata
  · refine .inr ⟨e, s', ?_, ?_⟩
    · rw [openFile, ← fileChunks, bind_of_error hrun]
    · change s.ninos < s.nextIno + 1 + _ ∨ _ at hspace
      rw [hstored, List.length_nil] at hspace
      omega

theorem openLink_cases {s₀ : MkSfs} {L₀ : MkLog} (target : List UInt8) (h : Built s L owner)
    (hk : s.inodes k = some ci) (htype : ci.inode.type ≠ sfsTypeDir) (h₀ : Grown s₀ s L₀ L)
    (hnone : s₀.inodes k = none) :
    ((openLink k target).run s).Sat (fun _ s' ↦ ∃ L' owner', Built s' L' owner' ∧
      Grown s₀ s' L₀ L' ∧ L'.entries = L.entries) fun _ _ ↦ True := by
  rw [openLink]
  by_cases hroom : s.nextIno < s.ninos
  swap
  · rw [bind_of_error (sfsAllocIno_full hroom)]
    trivial
  rw [bind_of_ok (sfsAllocIno_eq hroom)]
  by_cases hlong : sfsBlksize ≤ target.length
  · rw [if_pos hlong]
    trivial
  · rw [sfsBlksize_eq] at hlong
    rw [sfsBlksize_eq, if_neg hlong]
    obtain ⟨-, t, hwrite, hcases⟩ := store_cases h.ok hk (ofList target) (not_le.mp hlong).le hroom
    rw [bind_of_ok hwrite]
    rcases hcases with ⟨u, owner', happ, hst⟩ | ⟨u, happ, -⟩ | ⟨happ, -⟩
    · have hu := h.store hk hst [] (fun hd ↦ absurd hd htype) fun _ ↦ rfl
      have hgrown := h₀.store hk hst [] (.inr hnone)
      rw [MkLog.addEntries_nil] at hu hgrown
      rw [bind_of_ok happ]
      exact ⟨_, owner', hu, hgrown, rfl⟩
    · rw [bind_of_error happ]
      trivial
    · rw [bind_of_error happ]
      trivial

/-! ## Entries -/

/-- The number of links does not matter to the layout. -/
theorem Layout.setNlinks {cache : ℕ → Option Bytes} {bs : List ℕ}
    (h : Layout cache owner k ci bs) (n : ℕ) :
    Layout cache owner k { ci with inode := { ci.inode with nlinks := n } } bs := { h with }

/-- Replacing an inode by one with the same blocks. -/
theorem MkOk.setCi (h : MkOk s L owner) (hk : s.inodes k = some ci) {ci' : CacheInode}
    (hino : ci'.ino = k) (hlay : Layout s.cache owner k ci' (L.stored k)) :
    MkOk (s.setCi k ci') L owner := by
  have hnone : ∀ j, (s.setCi k ci').inodes j = none ↔ s.inodes j = none := by
    intro j
    by_cases hjk : j = k
    · subst hjk
      rw [s.setCi_inodes_self, hk]
      exact ⟨fun h ↦ (Option.some_ne_none _ h).elim, fun h ↦ (Option.some_ne_none _ h).elim⟩
    · rw [s.setCi_inodes_of_ne hjk]
  have hsome : ∀ j, (∃ cj, (s.setCi k ci').inodes j = some cj) ↔ ∃ cj, s.inodes j = some cj := by
    intro j
    rw [← Option.ne_none_iff_exists', ← Option.ne_none_iff_exists']
    exact not_congr (hnone j)
  exact { h with
    inode_lt := fun j cj hj ↦ by
      obtain ⟨cj', hj'⟩ := (hsome j).mp ⟨cj, hj⟩
      exact h.inode_lt j cj' hj'
    cache_inode := fun c b hc ↦ (hnone c).mpr (h.cache_inode c b hc)
    data_free := fun j b hb ↦ ⟨(h.data_free j b hb).1, (hnone b).mpr (h.data_free j b hb).2⟩
    stored_nil := fun j hj ↦ h.stored_nil j ((hnone j).mp hj)
    inodeTable := fun j ↦ (hsome j).trans (h.inodeTable j)
    ino := fun j cj hj ↦ by
      by_cases hjk : j = k
      · subst hjk
        exact Option.some.inj ((s.setCi_inodes_self j ci').symm.trans hj) ▸ hino
      · exact h.ino j cj ((s.setCi_inodes_of_ne hjk ci').symm.trans hj)
    layout := fun j cj hj ↦ by
      by_cases hjk : j = k
      · subst hjk
        exact Option.some.inj ((s.setCi_inodes_self j ci').symm.trans hj) ▸ hlay
      · exact h.layout j cj ((s.setCi_inodes_of_ne hjk ci').symm.trans hj) }

theorem Built.setNlinks (h : Built s L owner) (hk : s.inodes k = some ci) (n : ℕ) :
    Built (s.setCi k { ci with inode := { ci.inode with nlinks := n } }) L owner ∧
      Grown s (s.setCi k { ci with inode := { ci.inode with nlinks := n } }) L L := by
  set ci' : CacheInode := { ci with inode := { ci.inode with nlinks := n } } with hci'
  have hfwd : ∀ j cj, s.inodes j = some cj →
      ∃ cj', (s.setCi k ci').inodes j = some cj' ∧ cj'.inode.type = cj.inode.type := by
    intro j cj hj
    by_cases hjk : j = k
    · subst hjk
      exact ⟨ci', s.setCi_inodes_self j ci', by rw [Option.some.inj (hj.symm.trans hk)]⟩
    · exact ⟨cj, (s.setCi_inodes_of_ne hjk ci').trans hj, rfl⟩
  have hback : ∀ j cj, (s.setCi k ci').inodes j = some cj →
      ∃ cj', s.inodes j = some cj' ∧ cj'.inode.type = cj.inode.type := by
    intro j cj hj
    by_cases hjk : j = k
    · subst hjk
      obtain rfl := Option.some.inj ((s.setCi_inodes_self j ci').symm.trans hj)
      exact ⟨ci, hk, rfl⟩
    · exact ⟨cj, (s.setCi_inodes_of_ne hjk ci').symm.trans hj, rfl⟩
  refine ⟨⟨h.ok.setCi hk (h.ok.ino k ci hk) ((h.ok.layout k ci hk).setNlinks n), ?_,
    fun j cj hj hd ↦ ?_, fun j hj ↦ h.files j fun cj hcj ↦ ?_⟩,
    ⟨rfl, rfl, le_rfl, fun _ _ ↦ rfl, fun _ _ ↦ rfl, hfwd, fun _ _ _ _ ↦ rfl⟩⟩
  · obtain ⟨cr, hr, hd⟩ := h.root
    obtain ⟨cr', hr', htype⟩ := hfwd _ cr hr
    exact ⟨cr', hr', htype.trans hd⟩
  · obtain ⟨cj', hj', htype⟩ := hback j cj hj
    exact h.dirs j cj' hj' (htype.trans hd)
  · obtain ⟨cj', hj', htype⟩ := hfwd j cj hcj
    exact htype ▸ hj cj' hj'

/-- What `add_entry` wrote can be read back, up to 252 characters of the name. -/
theorem entryBlock_of_padded {blk e : Bytes} {file : ℕ} (hne : file ≠ 0) (hfile : file < 2 ^ 32)
    (name : CStr)
    (hlen : name.1.length ≤ 255)
    (h : Padded blk (strcpy (memcpy e 0 (le file) 0 4) 4 name.1) mkNameSize) :
    EntryBlock blk (file, name) where
  ino := by
    refine read32_of_le hfile fun i hi ↦ ?_
    rw [Nat.zero_add, h.data i (hi.trans (by decide)), strcpy_of_lt _ _ hi,
      memcpy_of_mem (Nat.zero_le i) (by omega), Nat.zero_add, Nat.sub_zero]
    rfl
  ino_ne := hne
  name i hi hlt := by
    rw [h.data (4 + i) (by rw [mkNameSize]; omega)]
    exact strcpy_of_mem _ 4 hi
  stop hlt := by
    change name.1.length < 252 at hlt
    rw [h.data (4 + name.1.length) (by rw [mkNameSize]; omega)]
    exact strcpy_end _ 4 _
  tail i hi := h.tail i hi
  length_le := hlen

theorem MkOk.inode_ne_zero (h : MkOk s L owner) (hk : s.inodes k = some ci) : k ≠ 0 := by
  have := two_le_firstIno s.ninos
  rcases h.inode_lt k ci hk with rfl | ⟨hle, -⟩
  · decide
  · omega

theorem MkOk.inode_lt_two_pow (h : MkOk s L owner) (hk : s.inodes k = some ci) : k < 2 ^ 32 := by
  have := h.next_lt
  rcases h.inode_lt k ci hk with rfl | ⟨-, hlt⟩
  · decide
  · omega

/-- `add_entry` stores an entry for `file` in directory `k`, unless the image or the directory is
full. -/
theorem addEntry_cases (h : Built s L owner) (hk : s.inodes k = some ci)
    (htype : ci.inode.type = sfsTypeDir) {file : ℕ} {cf : CacheInode} (hf : s.inodes file = some cf)
    (name : CStr) (hlen : name.1.length ≤ 255) :
    (∃ b s' L' owner', (addEntry k file name.1).run s = .ok b s' ∧ Built s' L' owner' ∧
      Grown s s' L L' ∧ L'.entries = Function.update L.entries k (L.entries k ++ [(file, name)]) ∧
      s'.nextIno ≤ s.nextIno + 3 ∧ L'.stored k = L.stored k ++ [b]) ∨
    ∃ e s', (addEntry k file name.1).run s = .error e s' ∧
      (s.ninos ≤ s.nextIno + 2 ∨ 32768 ≤ (L.stored k).length) := by
  set t : MkSfs := { s with entry := strcpy (memcpy s.entry 0 (le cf.ino) 0 4) 4 name.1 } with ht
  have hbt : Built t L owner := { h with ok := h.ok.setEntry _ }
  have hgt : Grown s t L L := { Grown.refl s L with }
  rw [addEntry, bind_of_ok (getCi_eq hk),
    assert_bind_run ⟨htype, by rw [sfsMaxFnameLen_eq]; exact hlen⟩, bind_of_ok (getCi_eq hf),
    modify_bind_run, ← ht]
  by_cases hroom : t.nextIno < t.ninos
  swap
  · refine .inr ⟨_, t, bind_of_error (sfsAllocIno_full hroom) _, .inl ?_⟩
    exact (not_lt.mp hroom).trans (Nat.le_add_right ..)
  obtain ⟨halloc, u, hwrite, hcases⟩ := store_cases hbt.ok hk t.entry
    (show mkNameSize ≤ 4096 by decide) hroom
  have hentry : t.take.entry = t.entry := rfl
  rw [bind_of_ok halloc, get_bind_run, hentry, bind_of_ok hwrite]
  rcases hcases with ⟨v, owner', happ, hst⟩ | ⟨v, happ, hspace⟩ | ⟨happ, hbig⟩
  · have hblock : EntryBlock (v.img t.nextIno) (file, name) := by
      have hdata := hst.data
      rw [ht] at hdata
      dsimp only at hdata
      rw [h.ok.ino file cf hf] at hdata
      exact entryBlock_of_padded (h.ok.inode_ne_zero hf) (h.ok.inode_lt_two_pow hf) name hlen hdata
    have hbv := hbt.store hk hst [(file, name)] (fun _ ↦ .cons hblock .nil)
      fun hne ↦ absurd htype hne
    have hgv := hgt.store hk hst [(file, name)] (.inl htype)
    obtain ⟨cf', hf', -⟩ := (hst.inode_cases hk file).1 cf hf
    obtain ⟨hbw, hgw⟩ := hbv.setNlinks hf' ((cf'.inode.nlinks + 1) % 2 ^ 16)
    refine .inl ⟨t.nextIno, _, _, owner', ?_, hbw, hgv.trans hgw, rfl, hst.next_le,
      L.append_stored_self k _⟩
    rw [bind_of_ok happ, bind_of_ok (getCi_eq hf'), bind_of_ok (putCi_eq v file _), run_pure]
  · exact .inr ⟨_, v, bind_of_error happ _, .inl hspace⟩
  · exact .inr ⟨_, u, bind_of_error happ _, .inr hbig⟩

/-! ## Sequences of operations -/

theorem dirEntries_entry (k current file : ℕ) (name : CStr) :
    dirEntries k [.entry current file name] = if current = k then [(file, name)] else [] := rfl

/-- What one more operation or a sequence of them adds to the directories. -/
theorem dirEntries_append (k : ℕ) (ops ops' : List MkOp) :
    dirEntries k (ops ++ ops') = dirEntries k ops ++ dirEntries k ops' := by
  induction ops with
  | nil => rfl
  | cons op ops ih =>
    cases op with
    | entry current file name =>
      rw [List.cons_append, dirEntries, dirEntries]
      split_ifs
      · rw [ih, List.cons_append]
      · exact ih
    | dir real => exact ih
    | file real data => exact ih
    | link real target => exact ih

/-- Building went on from `s` to `s'`, with `new k` more entries in each directory `k`. -/
def BuiltOn (s : MkSfs) (L : MkLog) (new : ℕ → List (ℕ × CStr)) (s' : MkSfs) : Prop :=
  ∃ L' owner', Built s' L' owner' ∧ Grown s s' L L' ∧ ∀ k, L'.entries k = L.entries k ++ new k

theorem BuiltOn.of_entries {L' : MkLog} (hb : Built s' L' owner') (hg : Grown s s' L L')
    (he : L'.entries = L.entries) : BuiltOn s L (fun _ ↦ []) s' :=
  ⟨L', owner', hb, hg, fun k ↦ by rw [List.append_nil, he]⟩

theorem newDir_sat (h : Built s L owner) (real : ℕ) :
    ((newDir real).run s).Sat (fun _ ↦ BuiltOn s L fun _ ↦ []) fun _ _ ↦ True := by
  rw [newDir, get_bind_run]
  refine sat_assert_bind fun _ ↦ ?_
  by_cases hroom : s.nextIno < s.ninos
  · obtain ⟨hb, hg, -⟩ := h.addInode hroom real sfsTypeDir
    rw [allocCacheInode_eq real sfsTypeDir hroom]
    exact .of_entries hb hg rfl
  · rw [allocCacheInode_full real sfsTypeDir hroom]
    trivial

theorem findFile_sat (h : Built s L owner) (real : ℕ) (data : List UInt8) :
    ((findFile real data).run s).Sat (fun _ ↦ BuiltOn s L fun _ ↦ []) fun _ _ ↦ True := by
  rw [findFile, get_bind_run]
  cases searchCacheInode s real with
  | some k => exact .of_entries h (.refl s L) rfl
  | none =>
    rcases newFile_cases h real data with
      ⟨k, bs, s', L', owner', ci', hrun, hb, hg, he, -⟩ | ⟨e, s', hrun, -⟩
    · dsimp only
      rw [bind_of_ok hrun]
      exact .of_entries hb hg he
    · dsimp only
      rw [bind_of_error hrun]
      trivial

theorem newLink_sat (h : Built s L owner) (real : ℕ) (target : List UInt8) :
    ((newLink real target).run s).Sat (fun _ ↦ BuiltOn s L fun _ ↦ []) fun _ _ ↦ True := by
  rw [newLink]
  by_cases hroom : s.nextIno < s.ninos
  · obtain ⟨hb, hg, hnone⟩ := h.addInode hroom real sfsTypeLink
    rw [bind_of_ok (allocCacheInode_eq real sfsTypeLink hroom)]
    refine sat_bind (openLink_cases target hb (MkSfs.setCi_inodes_self s.take s.nextIno _)
      (show sfsTypeLink ≠ sfsTypeDir by decide) hg hnone) ?_
    rintro _ s' ⟨L', owner', hb', hg', he⟩
    exact .of_entries hb' hg' he
  · rw [bind_of_error (allocCacheInode_full real sfsTypeLink hroom)]
    trivial

theorem addEntry_sat (h : Built s L owner) (current file : ℕ) (name : CStr) :
    ((addEntry current file name.1).run s).Sat
      (fun _ ↦ BuiltOn s L fun k ↦ dirEntries k [.entry current file name]) fun _ _ ↦ True := by
  cases hk : s.inodes current with
  | none =>
    rw [addEntry, bind_of_panic (by rw [getCi, get_bind_run, hk, run_halt])]
    trivial
  | some ci =>
    by_cases hassert : ci.inode.type = sfsTypeDir ∧ name.1.length ≤ sfsMaxFnameLen
    swap
    · rw [addEntry, bind_of_ok (getCi_eq hk), assert_bind_run_neg hassert]
      trivial
    cases hf : s.inodes file with
    | none =>
      rw [addEntry, bind_of_ok (getCi_eq hk), assert_bind_run hassert,
        bind_of_panic (by rw [getCi, get_bind_run, hf, run_halt])]
      trivial
    | some cf =>
      rcases addEntry_cases h hk hassert.1 hf name hassert.2 with
        ⟨b, s', L', owner', hrun, hb, hg, he, -⟩ | ⟨e, s', hrun, -⟩ <;> rw [hrun]
      · refine ⟨L', owner', hb, hg, fun k ↦ ?_⟩
        dsimp only
        rw [he, dirEntries_entry]
        by_cases hkc : k = current
        · subst hkc
          rw [Function.update_self, if_pos rfl]
        · rw [Function.update_of_ne hkc, if_neg (Ne.symm hkc), List.append_nil]
      · trivial

/-- An operation that returns keeps the invariant and adds its entry. -/
theorem MkOp.run_sat (h : Built s L owner) (op : MkOp) :
    (op.run.run s).Sat (fun _ ↦ BuiltOn s L fun k ↦ dirEntries k [op]) fun _ _ ↦ True := by
  cases op with
  | dir real => exact sat_bind (newDir_sat h real) fun _ _ hon ↦ hon
  | file real data => exact sat_bind (findFile_sat h real data) fun _ _ hon ↦ hon
  | link real target => exact sat_bind (newLink_sat h real target) fun _ _ hon ↦ hon
  | entry current file name => exact sat_bind (addEntry_sat h current file name) fun _ _ hon ↦ hon

/-- A run of operations keeps the invariant and adds the entries in order. -/
theorem runOps_sat (h : Built s L owner) (ops : List MkOp) :
    ((runOps ops).run s).Sat (fun _ ↦ BuiltOn s L fun k ↦ dirEntries k ops) fun _ _ ↦ True := by
  induction ops generalizing s L owner with
  | nil => exact .of_entries h (.refl s L) rfl
  | cons op ops ih =>
    rw [runOps]
    refine sat_bind (MkOp.run_sat h op) ?_
    rintro _ t ⟨M, owner', hb, hg, he⟩
    refine (ih hb).imp ?_ fun _ _ _ ↦ trivial
    rintro _ u ⟨N, owner'', hb', hg', he'⟩
    refine ⟨N, owner'', hb', hg.trans hg', fun k ↦ ?_⟩
    rw [he', he, List.append_assoc, ← dirEntries_append, List.singleton_append]

end Steps

/-- Nothing was appended yet. -/
def MkLog.empty : MkLog := ⟨fun _ ↦ [], fun _ ↦ []⟩

/-- `create_sfs` starts with a root directory without entries. -/
theorem createSfs_built {imgBlocks : ℕ} {img : ℕ → Bytes} {info : Fin 32 → UInt8} {entry : Bytes}
    {s : MkSfs} (h : createSfs imgBlocks img info entry = .ok s) :
    Built s .empty (fun _ ↦ 0) ∧ s.ninos = min (imgBlocks % 2 ^ 32) sfsMaxNblks ∧
      s.nextIno = firstIno s.ninos ∧ s.info = info ∧ s.img = img := by
  rw [createSfs] at h
  generalize hninos : min (imgBlocks % 2 ^ 32) sfsMaxNblks = ninos at h
  have hfirst : sfsBlknFreemap + (ninos + sfsBlkbits - 1) / sfsBlkbits = firstIno ninos := by
    rw [firstIno, sfsBlkbits_eq]
    congr 1
  rw [hfirst] at h
  dsimp only at h
  by_cases hsmall : ninos ≤ firstIno ninos
  · rw [if_pos hsmall] at h
    cases h
  · rw [if_neg hsmall] at h
    obtain rfl := Except.ok.inj h
    -- the root is the only inode, and it has no blocks yet
    have hnone : ∀ {k : ℕ} {root ci : CacheInode},
        (if k = sfsBlknRoot then some root else none) = some ci → k = sfsBlknRoot ∧ root = ci := by
      intro k root ci hk
      by_cases hroot : k = sfsBlknRoot
      · rw [if_pos hroot] at hk
        exact ⟨hroot, Option.some.inj hk⟩
      · rw [if_neg hroot] at hk
        cases hk
    have htable : ∀ (root : CacheInode) (k : ℕ),
        (∃ ci, (if k = sfsBlknRoot then some root else none) = some ci) ↔
          InTable (fun h ↦ if h = hash32 0 then [sfsBlknRoot] else []) k := by
      intro root k
      constructor
      · rintro ⟨ci, hk⟩
        refine ⟨hash32 0, hash32_lt 0, ?_⟩
        dsimp only
        rw [if_pos rfl, (hnone hk).1]
        exact List.mem_singleton_self _
      · rintro ⟨i, -, hk⟩
        dsimp only at hk
        by_cases hi : i = hash32 0
        · rw [if_pos hi] at hk
          exact ⟨root, if_pos (List.mem_singleton.mp hk)⟩
        · rw [if_neg hi] at hk
          exact absurd hk List.not_mem_nil
    refine ⟨⟨{ ninos_le := hninos ▸ min_le_right _ _
               blocks := rfl
               first_le := le_rfl
               next_le := (not_le.mp hsmall).le
               unused := rfl
               inode_lt := fun k ci hk ↦ .inl (hnone hk).1
               cache_lt := fun c b hc ↦ by cases hc
               data_lt := fun k b hb ↦ absurd hb List.not_mem_nil
               cache_inode := fun c b hc ↦ by cases hc
               data_free := fun k b hb ↦ absurd hb List.not_mem_nil
               stored_nil := fun _ _ ↦ rfl
               cacheTable := fun c ↦ by
                 refine ⟨?_, ?_⟩
                 · rintro ⟨b, hb⟩
                   cases hb
                 · rintro ⟨i, -, hc⟩
                   exact absurd hc List.not_mem_nil
               inodeTable := htable _
               ino := fun k ci hk ↦ by
                 obtain ⟨rfl, rfl⟩ := hnone hk
                 rfl
               layout := fun k ci hk ↦ by
                 obtain ⟨rfl, rfl⟩ := hnone hk
                 exact Layout.nil _ _ sfsBlknRoot 0 sfsTypeDir },
      ⟨⟨⟨0, sfsTypeDir, 0, 0, fun _ ↦ 0, 0, 0⟩, 0, sfsBlknRoot, 0, none, none⟩, rfl, rfl⟩,
      fun _ _ _ _ ↦ .nil, fun _ _ ↦ rfl⟩, rfl, rfl, rfl, rfl⟩

end Ucore
