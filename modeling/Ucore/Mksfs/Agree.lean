import Ucore.Mksfs.Close
import Ucore.Sfs.Dirent

/-!
# The kernel on an image

What the kernel makes of an inode that `mksfs` wrote. Both programs keep the first twelve blocks in
the inode and the next 1024 in one block of entries; what `mksfs` puts behind its doubly indirect
block the kernel cannot reach. A directory entry is 260 bytes long for both, of which `add_entry`
writes 256.

The kernel has a closed image mounted (`SfsFs.OnImage`) when its device and its free blocks are
those of the image. What `mksfs` handed out is then in use for the kernel, and the block map of an
inode that the kernel loads is the list of the blocks appended to it, as far as it reaches
(`Closed.bmap`). Two exact results follow: for the blocks of a file (`mksfs_bmap_iff`) and for the
entries of a directory (`mksfs_dirent_iff`).
-/

namespace Ucore

open Bytes Prog

/-- The kernel has the closed image mounted: the device, the size and the free blocks are those of
the image. -/
structure SfsFs.OnImage (m : SfsFs) (s : MkSfs) (img : ℕ → Bytes) : Prop where
  ok : m.Ok
  dev : m.dev.HasImage s.ninos img
  blocks : m.super.blocks = s.ninos
  isFree : ∀ b, m.freemap.isFree b = true ↔ s.nextIno ≤ b ∧ b < s.ninos

/-- Inode `k` is in memory as it stands on the device. -/
def SfsFs.Loaded (m : SfsFs) (k : ℕ) (sin : SfsInode) : Prop :=
  m.inodes k = some sin ∧ sin.din = SfsDiskInode.ofBytes (m.dev.blk k)

section OnImage

variable {m : SfsFs} {s : MkSfs} {L : MkLog} {owner : ℕ → ℕ} {img : ℕ → Bytes} {k : ℕ}
  {ci : CacheInode} {sin : SfsInode}

/-- What was handed out is in use for the kernel. -/
theorem SfsFs.OnImage.used (hm : m.OnImage s img) {b : ℕ} (hb : b ≠ 0) (hlt : b < s.nextIno)
    (hle : s.nextIno ≤ s.ninos) : m.Used b := by
  refine ⟨hb, ?_, ?_⟩
  · rw [hm.blocks]
    exact hlt.trans_le hle
  · rw [← Bool.not_eq_true, hm.isFree]
    exact fun hc ↦ absurd hc.1 (not_le.mpr hlt)

theorem MkOk.used_of_first_le (h : MkOk s L owner) (hm : m.OnImage s img) {b : ℕ}
    (hb : firstIno s.ninos ≤ b ∧ b < s.nextIno) : m.Used b := by
  have htwo := two_le_firstIno s.ninos
  exact hm.used (by omega) hb.2 h.next_le

/-- The fields of the inode that the kernel's block map uses. -/
theorem Closed.din (h : MkOk s L owner) (hc : Closed s img) (hm : m.OnImage s img)
    (hk : s.inodes k = some ci) (hsin : m.Loaded k sin) :
    sin.din.blocks = (L.stored k).length ∧
      (∀ i (h12 : i < 12) n, (L.stored k)[i]? = some n → sin.din.direct ⟨i, h12⟩ = n) ∧
      sin.din.indirect = ci.inode.indirect ∧
      (ci.inode.type = sfsTypeDir → sin.din.type = sfsTypeDir) := by
  have hlay := h.layout k ci hk
  have hlen := hlay.length_le
  have hbytes : sin.din = SfsDiskInode.ofBytes (SfsDiskInode.bytes ⟨ci.inode.size, ci.inode.type,
      ci.inode.nlinks, ci.inode.blocks, ci.inode.direct, ci.inode.indirect⟩) := by
    rw [hsin.2]
    refine SfsDiskInode.ofBytes_congr fun i hi ↦ ?_
    rw [hm.dev.blk k (h.inode_lt_ninos hk) i (by omega),
      ((hc.content k).inode ci hk).data i (hi.trans (by decide)), MkInode.bytes, if_pos hi]
  have hnext := h.next_lt
  have hindirect : ci.inode.indirect < 2 ^ 32 := by
    by_cases hlong : 12 < (L.stored k).length
    · obtain ⟨b, hb, -⟩ := hlay.slots hlong
      exact (h.cache_lt _ b hb).2.trans hnext
    · rw [hlay.noIndirect (not_lt.mp hlong)]
      decide
  rw [hbytes]
  refine ⟨?_, fun i h12 n hn ↦ ?_, SfsDiskInode.indirect_ofBytes_bytes hindirect, fun htype ↦ ?_⟩
  · refine (SfsDiskInode.blocks_ofBytes_bytes ?_).trans hlay.blocks
    change ci.inode.blocks < 2 ^ 32
    rw [hlay.blocks]
    omega
  · have hdirect := hlay.direct i n hn h12
    have hlt := (h.data_lt k n (List.mem_of_getElem? hn)).2
    refine (SfsDiskInode.direct_ofBytes_bytes ?_).trans hdirect
    change ci.inode.direct ⟨i, h12⟩ < 2 ^ 32
    rw [hdirect]
    exact hlt.trans hnext
  · refine (SfsDiskInode.type_ofBytes_bytes ?_).trans htype
    change ci.inode.type < 2 ^ 16
    rw [htype]
    decide

/-- The kernel's map of the inode has the blocks `mksfs` appended, as far as it reaches. -/
theorem Closed.bmap (h : MkOk s L owner) (hc : Closed s img) (hm : m.OnImage s img)
    (hk : s.inodes k = some ci) (hsin : m.Loaded k sin) {i : ℕ} (hi : i < (L.stored k).length)
    (hlt : i < 1036) : m.bmap sin.din i = (L.stored k)[i] ∧ m.Used (m.bmap sin.din i) ∧
      (sin.din.indirect ≠ 0 → m.Used sin.din.indirect) := by
  have hlay := h.layout k ci hk
  obtain ⟨-, hdirect, hindirect, -⟩ := hc.din h hm hk hsin
  have hget : (L.stored k)[i]? = some (L.stored k)[i] := List.getElem?_eq_getElem hi
  have hbmap : m.bmap sin.din i = (L.stored k)[i] := by
    by_cases h12 : i < 12
    · rw [SfsFs.bmap_of_lt h12]
      exact hdirect i h12 _ hget
    · obtain ⟨b, hb, -, hread⟩ := hlay.slots (by omega)
      have hlt' := h.cache_lt_ninos hb
      rw [SfsFs.bmap_of_slot h12 hlt (by rw [hindirect]; exact h.cache_ne_zero hb), hindirect,
        ← hread i _ hget (not_lt.mp h12) hlt]
      refine read32_congr fun j _ hj ↦ ?_
      rw [hm.dev.blk _ hlt' j (by omega), ((hc.content _).cache b hb).data j (by omega)]
  refine ⟨hbmap, hbmap ▸ h.used_of_first_le hm (h.data_lt k _ (List.getElem_mem hi)), fun hne ↦ ?_⟩
  have hlong : 12 < (L.stored k).length := by
    by_contra hshort
    exact hne (hindirect.trans (hlay.noIndirect (not_lt.mp hshort)))
  obtain ⟨b, hb, -⟩ := hlay.slots hlong
  rw [hindirect]
  exact h.used_of_first_le hm (h.cache_lt _ b hb)

/-- Looking up a block of an inode on the image works exactly within the reach of the kernel. -/
theorem Closed.bmap_get (h : MkOk s L owner) (hc : Closed s img) (hm : m.OnImage s img)
    (hk : s.inodes k = some ci) (hsin : m.Loaded k sin) {i : ℕ} (hi : i < (L.stored k).length) :
    (sfsBmapGetNolock k i false).run m =
      if i < 1036 then .ok (L.stored k)[i] m else .panic := by
  by_cases hlt : i < 1036
  · obtain ⟨hbmap, hused, hind⟩ := hc.bmap h hm hk hsin hi hlt
    rw [if_pos hlt, sfsBmapGetNolock_of_used hm.ok hsin.1 false hused hind, hbmap]
  · rw [if_neg hlt, sfsBmapGetNolock_panic_of_full hsin.1 (not_lt.mp hlt)]

/-- A closed image mounts, and an inode can be loaded from it. -/
theorem Closed.onImage (h : MkOk s L owner) (hc : Closed s img) {dev : Device}
    (hdev : dev.HasImage s.ninos img) : ∃ m, sfsDoMount.run dev = .ok m dev ∧ m.dev = dev ∧
      ∀ k sin, sin.din = SfsDiskInode.ofBytes (dev.blk k) →
        (m.setInode k sin).OnImage s img ∧ (m.setInode k sin).Loaded k sin := by
  obtain ⟨m, hrun, hok, hmdev, hblocks, -, -, hfree⟩ := hc.mount h hdev
  refine ⟨m, hrun, hmdev, fun k sin hdin ↦ ⟨⟨?_, ?_, hblocks, hfree⟩, ?_, ?_⟩⟩
  · exact hok.setInode k sin
  · rw [SfsFs.setInode_dev, hmdev]
    exact hdev
  · exact m.setInode_inodes_self k sin
  · rw [SfsFs.setInode_dev, hmdev, hdin]

end OnImage

/-! ## Files -/

/-- The blocks have the chunks of the file. -/
def HoldsChunks (img : ℕ → Bytes) (bs : List ℕ) (data : List UInt8) : Prop :=
  bs.length = fileChunks data ∧
    ∀ i (hi : i < bs.length) j (hj : j < (chunk data i).length), img bs[i] j = (chunk data i)[j]

theorem ofList_getElem {l : List UInt8} {j : ℕ} (hj : j < l.length) : ofList l j = l[j] := by
  rw [ofList, List.getD_eq_getElem?_getD, List.getElem?_eq_getElem hj, Option.getD_some]

/-- A file that was added is on the closed image, whatever was added before and after. -/
theorem file_closed {imgBlocks : ℕ} {img : ℕ → Bytes} {info : Fin 32 → UInt8} {entry : Bytes}
    {pre post : List MkOp} {real k : ℕ} {data : List UInt8} {bs : List ℕ} {s₀ s₁ s₂ s : MkSfs}
    (hcreate : createSfs imgBlocks img info entry = .ok s₀) (hpre : (runOps pre).run s₀ = .ok () s₁)
    (hnew : (newFile real data).run s₁ = .ok (k, bs) s₂) (hpost : (runOps post).run s₂ = .ok () s) :
    ∃ img' L owner ci, closeSfs.run s = .ok () (s.withImg img') ∧ MkOk s L owner ∧ Closed s img' ∧
      s.inodes k = some ci ∧ L.stored k = bs ∧ HoldsChunks img' bs data := by
  have hrun := runOps_sat (createSfs_built hcreate).1 pre
  rw [hpre] at hrun
  obtain ⟨L₁, owner₁, hb₁, -, -⟩ := hrun
  rcases newFile_cases hb₁ real data with
    ⟨k', bs', s', L₂, owner₂, ci, hrun', hb₂, -, -, hstored, hdata, hlen, hk, htype⟩ |
    ⟨e, s', hrun', -⟩
  swap
  · cases hnew.symm.trans hrun'
  obtain ⟨⟨rfl, rfl⟩, rfl⟩ : (k = k' ∧ bs = bs') ∧ s₂ = s' := by
    have heq := hnew.symm.trans hrun'
    rw [Outcome.ok.injEq, Prod.mk.injEq] at heq
    exact heq
  have hrun := runOps_sat hb₂ post
  rw [hpost] at hrun
  obtain ⟨L, owner, hb, hg, -⟩ := hrun
  obtain ⟨ci', hk', -⟩ := hg.inode k ci hk
  have hne : ci.inode.type ≠ sfsTypeDir := by
    rw [htype]
    decide
  have hst : L.stored k = bs := (hg.stored k ci hk hne).trans hstored
  obtain ⟨img', hclose, hc⟩ := closeSfs_eq hb.ok
  refine ⟨img', L, owner, ci', hclose, hb.ok, hc, hk', hst, hlen, fun i hi j hj ↦ ?_⟩
  have hmem : bs[i] ∈ L₂.stored k := hstored ▸ List.getElem_mem hi
  have hmem' : bs[i] ∈ L.stored k := hst ▸ List.getElem_mem hi
  obtain ⟨hcache, hinode⟩ := hb.ok.data_free k _ hmem'
  rw [hc.rest _ (hb.ok.data_lt k _ hmem').1 hcache hinode, hg.img _ (hb₂.ok.data_lt k _ hmem).2,
    (hdata i hi).data j hj, ofList_getElem hj]

theorem fileChunks_le_iff (data : List UInt8) :
    fileChunks data ≤ 1036 ↔ data.length ≤ 1036 * 4096 := by
  rw [fileChunks, sfsBlksize_eq]
  omega

/-- The kernel finds every chunk of a file where `mksfs` put it exactly if the file has at most 1036
blocks. -/
theorem mksfs_bmap_iff {imgBlocks : ℕ} {img : ℕ → Bytes} {info : Fin 32 → UInt8} {entry : Bytes}
    {pre post : List MkOp} {real k : ℕ} {data : List UInt8} {bs : List ℕ} {s₀ s₁ s₂ s : MkSfs}
    (hcreate : createSfs imgBlocks img info entry = .ok s₀) (hpre : (runOps pre).run s₀ = .ok () s₁)
    (hnew : (newFile real data).run s₁ = .ok (k, bs) s₂) (hpost : (runOps post).run s₂ = .ok () s) :
    ∃ img', closeSfs.run s = .ok () (s.withImg img') ∧ HoldsChunks img' bs data ∧
      ∀ dev : Device, dev.HasImage s.ninos img' → ∃ m, sfsDoMount.run dev = .ok m dev ∧
        ∀ sin : SfsInode, sin.din = SfsDiskInode.ofBytes (dev.blk k) → sin.din.blocks = bs.length ∧
          ((∀ i (hi : i < bs.length), (sfsBmapGetNolock k i false).run (m.setInode k sin) =
            .ok bs[i] (m.setInode k sin)) ↔ data.length ≤ 1036 * 4096) := by
  obtain ⟨img', L, owner, ci, hclose, hok, hc, hk, hst, hdata⟩ :=
    file_closed hcreate hpre hnew hpost
  refine ⟨img', hclose, hdata, fun dev hdev ↦ ?_⟩
  obtain ⟨m, hmount, -, hload⟩ := hc.onImage hok hdev
  refine ⟨m, hmount, fun sin hdin ↦ ?_⟩
  obtain ⟨hon, hsin⟩ := hload k sin hdin
  subst hst
  refine ⟨(hc.din hok hon hk hsin).1, ?_⟩
  rw [← fileChunks_le_iff, ← hdata.1]
  constructor
  · intro hall
    by_contra hlong
    rw [not_le] at hlong
    have hpanic := (hall 1036 hlong).symm.trans (hc.bmap_get hok hon hk hsin hlong)
    rw [if_neg (lt_irrefl _)] at hpanic
    cases hpanic
  · intro hle i hi
    rw [hc.bmap_get hok hon hk hsin hi, if_pos (hi.trans_le hle)]

/-- There is room for the file on an image of 8192 blocks. -/
theorem newFile_sample (data : List UInt8) (hdata : fileChunks data ≤ 2048) :
    ∃ s₀ k bs s, createSfs 8192 (fun _ ↦ zero) (fun _ ↦ 0) zero = .ok s₀ ∧ s₀.ninos = 8192 ∧
      (newFile 7 data).run s₀ = .ok (k, bs) s := by
  obtain ⟨s₀, hcreate⟩ : ∃ s₀, createSfs 8192 (fun _ ↦ zero) (fun _ ↦ 0) zero = .ok s₀ := ⟨_, rfl⟩
  obtain ⟨hb, hmin, hnext, -, -⟩ := createSfs_built hcreate
  have hninos : s₀.ninos = 8192 := hmin
  refine ⟨s₀, ?_⟩
  rcases newFile_cases hb 7 data with ⟨k, bs, s, L, owner, ci, hrun, -⟩ | ⟨e, s, -, hspace⟩
  · exact ⟨k, bs, s, hcreate, hninos, hrun⟩
  · have hfirst : firstIno 8192 = 3 := rfl
    rw [hnext, hninos, hfirst] at hspace
    omega

/-- A file of three bytes. -/
theorem mksfs_bmap_iff_sample : ∃ s₀ k bs s img',
    createSfs 8192 (fun _ ↦ zero) (fun _ ↦ 0) zero = .ok s₀ ∧
    (newFile 7 [1, 2, 3]).run s₀ = .ok (k, bs) s ∧ closeSfs.run s = .ok () (s.withImg img') ∧
      HoldsChunks img' bs [1, 2, 3] ∧
      ∀ dev : Device, dev.HasImage s.ninos img' → ∃ m, sfsDoMount.run dev = .ok m dev ∧
        ∀ sin : SfsInode, sin.din = SfsDiskInode.ofBytes (dev.blk k) →
          ∀ i (hi : i < bs.length), (sfsBmapGetNolock k i false).run (m.setInode k sin) =
            .ok bs[i] (m.setInode k sin) := by
  obtain ⟨s₀, k, bs, s, hcreate, -, hnew⟩ := newFile_sample [1, 2, 3] (by decide)
  obtain ⟨img', hclose, hdata, hall⟩ := mksfs_bmap_iff hcreate
    (show (runOps []).run s₀ = .ok () s₀ from rfl) hnew (show (runOps []).run s = .ok () s from rfl)
  refine ⟨s₀, k, bs, s, img', hcreate, hnew, hclose, hdata, fun dev hdev ↦ ?_⟩
  obtain ⟨m, hmount, hiff⟩ := hall dev hdev
  exact ⟨m, hmount, fun sin hdin ↦ (hiff sin hdin).2.mpr (by decide)⟩

/-- A file of 1037 blocks, which `mksfs` accepts: looking up the last one stops the kernel. -/
theorem mksfs_bmap_long : ∃ s₀ k bs s img' dev m,
    createSfs 8192 (fun _ ↦ zero) (fun _ ↦ 0) zero = .ok s₀ ∧
      (newFile 7 (List.replicate (1036 * 4096 + 1) 0)).run s₀ = .ok (k, bs) s ∧ bs.length = 1037 ∧
      closeSfs.run s = .ok () (s.withImg img') ∧ dev.HasImage s.ninos img' ∧
      sfsDoMount.run dev = .ok m dev ∧
      ∀ sin : SfsInode, sin.din = SfsDiskInode.ofBytes (dev.blk k) →
        (sfsBmapGetNolock k 1036 false).run (m.setInode k sin) = .panic := by
  have hchunks : fileChunks (List.replicate (1036 * 4096 + 1) 0) = 1037 := by
    rw [fileChunks, List.length_replicate, sfsBlksize_eq]
  obtain ⟨s₀, k, bs, s, hcreate, hninos, hnew⟩ :=
    newFile_sample (List.replicate (1036 * 4096 + 1) 0) (by rw [hchunks]; decide)
  obtain ⟨img', L, owner, ci, hclose, hok, hc, hk, hst, hdata⟩ :=
    file_closed hcreate (show (runOps []).run s₀ = .ok () s₀ from rfl) hnew
      (show (runOps []).run s = .ok () s from rfl)
  have hlen : bs.length = 1037 := hdata.1.trans hchunks
  have hlt : s.ninos < 2 ^ 20 := hok.ninos_le.trans_lt (by decide)
  have hdev : Device.HasImage ⟨s.ninos, img', [], hlt⟩ s.ninos img' :=
    ⟨rfl, le_rfl, fun _ _ _ _ ↦ rfl⟩
  obtain ⟨m, hmount, -, hload⟩ := hc.onImage hok hdev
  refine ⟨s₀, k, bs, s, img', _, m, hcreate, hnew, hlen, hclose, hdev, hmount, fun sin hdin ↦ ?_⟩
  obtain ⟨hon, hsin⟩ := hload k sin hdin
  subst hst
  rw [hc.bmap_get hok hon hk hsin (by omega), if_neg (lt_irrefl _)]

/-! ## Directories -/

section Dirs

variable {m : SfsFs} {s : MkSfs} {L : MkLog} {owner : ℕ → ℕ} {img : ℕ → Bytes} {k : ℕ}
  {ci : CacheInode} {sin : SfsInode} {blk blk' : Bytes} {e : ℕ × CStr}

theorem EntryBlock.congr_lt (h : EntryBlock blk e) (heq : ∀ i < 4096, blk' i = blk i) :
    EntryBlock blk' e where
  ino := (read32_congr fun i _ hi ↦ heq i (by omega)).trans h.ino
  ino_ne := h.ino_ne
  name i hi hlt := (heq _ (by omega)).trans (h.name i hi hlt)
  stop hlt := (heq _ (by omega)).trans (h.stop hlt)
  tail i hi hlt := (heq i hlt).trans (h.tail i hi hlt)
  length_le := h.length_le

/-- The entry that the kernel makes of a block. -/
def direntOf (blk : Bytes) : SfsDiskEntry :=
  (SfsDiskEntry.ofBytes (memcpy zero 0 blk 0 SfsDiskEntry.sizeof)).terminate

theorem direntOf_ino (h : EntryBlock blk e) : (direntOf blk).ino = e.1 := by
  refine (read32_congr fun i _ hi ↦ ?_).trans h.ino
  rw [memcpy_of_mem (Nat.zero_le i) (by rw [SfsDiskEntry.sizeof]; omega), Nat.zero_add,
    Nat.sub_zero]

theorem direntOf_name {j : ℕ} (hj : j < 255) : (direntOf blk).name j = blk (4 + j) := by
  refine (Function.update_of_ne (by rw [sfsMaxFnameLen_eq]; omega) _ _).trans ?_
  refine (memcpy_of_mem (Nat.zero_le _) (by rw [SfsDiskEntry.sizeof]; omega)).trans ?_
  rw [Nat.zero_add, Nat.sub_zero]

/-- The kernel sees the name that was written exactly if it has at most 252 characters. -/
theorem direntOf_str_iff (h : EntryBlock blk e) :
    (direntOf blk).str = e.2.1 ↔ e.2.1.length ≤ 252 := by
  have hlen := h.length_le
  have hstop : (direntOf blk).name 252 = 0 := by
    rw [direntOf_name (by decide)]
    exact h.tail 256 le_rfl (by decide)
  constructor
  · intro heq
    have hle := length_cstring_le hstop SfsDiskEntry.nameSize
    rw [← SfsDiskEntry.str, heq] at hle
    exact hle
  · intro hle
    refine cstring_eq e.2.2 (fun i hi ↦ ?_) ?_ (by rw [SfsDiskEntry.nameSize]; omega)
    · rw [direntOf_name (by omega), h.name i hi (by omega)]
    · rcases hle.lt_or_eq with hlt | heq
      · rw [direntOf_name (by omega), h.stop hlt]
      · rw [heq, hstop]

/-- The kernel reads what is in the block of a slot, within its reach. -/
theorem Closed.dirent_read (h : Built s L owner) (hc : Closed s img) (hm : m.OnImage s img)
    (hk : s.inodes k = some ci) (htype : ci.inode.type = sfsTypeDir) (hsin : m.Loaded k sin) :
    sin.din.blocks = (L.entries k).length ∧ ∀ i (hi : i < (L.entries k).length),
      if i < 1036 then
        ∃ entry, (sfsDirentReadNolock k i).run m = .ok entry m ∧ entry.ino = (L.entries k)[i].1 ∧
          entry.ino ≠ 0 ∧ (entry.str = (L.entries k)[i].2.1 ↔ (L.entries k)[i].2.1.length ≤ 252)
      else (sfsDirentReadNolock k i).run m = .panic := by
  have hdirs := h.dirs k ci hk htype
  have hlen : (L.stored k).length = (L.entries k).length := hdirs.length_eq
  obtain ⟨hblocks, -, -, hdir⟩ := hc.din h.ok hm hk hsin
  refine ⟨hblocks.trans hlen, fun i hi ↦ ?_⟩
  have hi' : i < (L.stored k).length := hlen ▸ hi
  by_cases hlt : i < 1036
  · rw [if_pos hlt]
    obtain ⟨hbmap, hused, hind⟩ := hc.bmap h.ok hm hk hsin hi' hlt
    have hmem := List.getElem_mem hi'
    obtain ⟨hcache, hinode⟩ := h.ok.data_free k _ hmem
    have hlt' := h.ok.data_lt k _ hmem
    have hblock : EntryBlock (m.dev.blk (L.stored k)[i]) (L.entries k)[i] := by
      refine ((List.forall₂_iff_get.mp hdirs).2 i hi' hi).congr_lt fun j hj ↦ ?_
      rw [hm.dev.blk _ (hlt'.2.trans_le h.ok.next_le) j hj, hc.rest _ hlt'.1 hcache hinode]
      rfl
    have hread := sfsDirentReadNolock_eq hm.ok hsin.1 (hdir htype) (hblocks ▸ hi') hused hind
    rw [hbmap] at hread
    exact ⟨_, hread, direntOf_ino hblock, (direntOf_ino hblock).trans_ne hblock.ino_ne,
      direntOf_str_iff hblock⟩
  · rw [if_neg hlt]
    exact sfsDirentReadNolock_panic hsin.1 (not_lt.mp hlt)

/-- Slot `i` reads back as this entry, and looking up its name finds its inode. -/
def ReadsBack (m : SfsFs) (k i : ℕ) (e : ℕ × CStr) : Prop :=
  (∃ entry, (sfsDirentReadNolock k i).run m = .ok entry m ∧ entry.ino = e.1 ∧ entry.str = e.2.1) ∧
    ∃ slot, (sfsDirentSearchNolock k e.2.1).run m = .ok (slot, e.1) m

/-- The entries that read back, as a property of the entries alone. -/
structure Readable (es : List (ℕ × CStr)) : Prop where
  name_le : ∀ e ∈ es, e.2.1.length ≤ 252
  length_le : es.length ≤ 1036
  unique : ∀ e ∈ es, ∀ e' ∈ es, e.2.1 = e'.2.1 → e.1 = e'.1

/-- Every entry of a directory reads back exactly if they are readable. -/
theorem Closed.readsBack_iff (h : Built s L owner) (hc : Closed s img) (hm : m.OnImage s img)
    (hk : s.inodes k = some ci) (htype : ci.inode.type = sfsTypeDir) (hsin : m.Loaded k sin) :
    (∀ i (hi : i < (L.entries k).length), ReadsBack m k i (L.entries k)[i]) ↔
      Readable (L.entries k) := by
  obtain ⟨hblocks, hread⟩ := hc.dirent_read h hm hk htype hsin
  constructor
  · intro hall
    have hreach : ∀ i (hi : i < (L.entries k).length), i < 1036 := by
      intro i hi
      by_contra hge
      obtain ⟨⟨entry, hok, -⟩, -⟩ := hall i hi
      have hpanic := hread i hi
      rw [if_neg hge] at hpanic
      cases hok.symm.trans hpanic
    refine ⟨fun e he ↦ ?_, ?_, fun e he e' he' hname ↦ ?_⟩
    · obtain ⟨i, hi, rfl⟩ := List.getElem_of_mem he
      obtain ⟨⟨entry, hok, -, hstr⟩, -⟩ := hall i hi
      have hentry := hread i hi
      rw [if_pos (hreach i hi)] at hentry
      obtain ⟨entry', hok', -, -, hiff⟩ := hentry
      obtain ⟨rfl, -⟩ := Outcome.ok.inj (hok.symm.trans hok')
      exact hiff.mp hstr
    · by_contra hlong
      exact lt_irrefl _ (hreach 1036 (not_le.mp hlong))
    · obtain ⟨i, hi, rfl⟩ := List.getElem_of_mem he
      obtain ⟨j, hj, rfl⟩ := List.getElem_of_mem he'
      obtain ⟨-, slot, hslot⟩ := hall i hi
      obtain ⟨-, slot', hslot'⟩ := hall j hj
      rw [hname] at hslot
      obtain ⟨heq, -⟩ := Outcome.ok.inj (hslot.symm.trans hslot')
      exact (Prod.mk.inj heq).2
  · intro hr
    have hentry : ∀ i, ∃ entry : SfsDiskEntry, ∀ hi : i < (L.entries k).length,
        (sfsDirentReadNolock k i).run m = .ok entry m ∧ entry.ino = (L.entries k)[i].1 ∧
          entry.ino ≠ 0 ∧ entry.str = (L.entries k)[i].2.1 := by
      intro i
      by_cases hi : i < (L.entries k).length
      · have hi' := hread i hi
        rw [if_pos (hi.trans_le hr.length_le)] at hi'
        obtain ⟨entry, hok, hino, hne, hiff⟩ := hi'
        exact ⟨entry, fun _ ↦ ⟨hok, hino, hne, hiff.mpr (hr.name_le _ (List.getElem_mem hi))⟩⟩
      · exact ⟨⟨0, zero⟩, fun h ↦ absurd h hi⟩
    choose entry hentry using hentry
    intro i hi
    refine ⟨⟨entry i, (hentry i hi).1, (hentry i hi).2.1, (hentry i hi).2.2.2⟩, ?_⟩
    -- The search stops at the first slot with the name.
    have hex : ∃ j, ∃ hj : j < (L.entries k).length, (L.entries k)[j].2.1 = (L.entries k)[i].2.1 :=
      ⟨i, hi, rfl⟩
    classical
    obtain ⟨hj, hname⟩ := Nat.find_spec hex
    have hfirst : ∀ n < Nat.find hex, (entry n).str ≠ (L.entries k)[i].2.1 := by
      intro n hn heq
      have hn' : n < (L.entries k).length := hn.trans hj
      exact Nat.find_min hex hn ⟨hn', (hentry n hn').2.2.2.symm.trans heq⟩
    have hle : (L.entries k)[i].2.1.length ≤ sfsMaxFnameLen := by
      have := hr.name_le _ (List.getElem_mem hi)
      rw [sfsMaxFnameLen_eq]
      omega
    refine ⟨Nat.find hex, ?_⟩
    rw [sfsDirentSearchNolock, assert_bind_run hle, bind_of_ok (getSin_eq hsin.1), hblocks]
    obtain ⟨-, hino, hne, hstr⟩ := hentry _ hj
    have hloop := sfsDirentSearchLoop_eq (L.entries k).length
      (fun n _ hn ↦ (hentry n (hn.trans_lt hj)).1) (Nat.zero_le (Nat.find hex)) (by omega)
      (fun n _ hn ↦ hfirst n hn) (hstr.trans hname) hne
    rw [hloop, hino, hr.unique _ (List.getElem_mem hj) _ (List.getElem_mem hi) hname]

end Dirs

/-- The entries that were added to a directory of the closed image. -/
theorem dir_closed {imgBlocks : ℕ} {img : ℕ → Bytes} {info : Fin 32 → UInt8} {entry : Bytes}
    {ops : List MkOp} {s₀ s : MkSfs} (hcreate : createSfs imgBlocks img info entry = .ok s₀)
    (hops : (runOps ops).run s₀ = .ok () s) :
    ∃ img' L owner, closeSfs.run s = .ok () (s.withImg img') ∧ Built s L owner ∧ Closed s img' ∧
      ∀ k, L.entries k = dirEntries k ops := by
  have hrun := runOps_sat (createSfs_built hcreate).1 ops
  rw [hops] at hrun
  obtain ⟨L, owner, hb, -, he⟩ := hrun
  obtain ⟨img', hclose, hc⟩ := closeSfs_eq hb.ok
  exact ⟨img', L, owner, hclose, hb, hc, fun k ↦ (he k).trans (List.nil_append _)⟩

/-- The kernel reads back every entry of a directory that `mksfs` wrote exactly if no name is longer
than 252 characters, there are at most 1036 entries, and no name stands for two inodes. -/
theorem mksfs_dirent_iff {imgBlocks : ℕ} {img : ℕ → Bytes} {info : Fin 32 → UInt8} {entry : Bytes}
    {ops : List MkOp} {s₀ s : MkSfs} {k : ℕ} {ci : CacheInode}
    (hcreate : createSfs imgBlocks img info entry = .ok s₀) (hops : (runOps ops).run s₀ = .ok () s)
    (hk : s.inodes k = some ci) (htype : ci.inode.type = sfsTypeDir) :
    ∃ img', closeSfs.run s = .ok () (s.withImg img') ∧
      ∀ dev : Device, dev.HasImage s.ninos img' → ∃ m, sfsDoMount.run dev = .ok m dev ∧
        ∀ sin : SfsInode, sin.din = SfsDiskInode.ofBytes (dev.blk k) →
          ((∀ i (hi : i < (dirEntries k ops).length),
            ReadsBack (m.setInode k sin) k i (dirEntries k ops)[i]) ↔
              Readable (dirEntries k ops)) := by
  obtain ⟨img', L, owner, hclose, hb, hc, he⟩ := dir_closed hcreate hops
  refine ⟨img', hclose, fun dev hdev ↦ ?_⟩
  obtain ⟨m, hmount, -, hload⟩ := hc.onImage hb.ok hdev
  refine ⟨m, hmount, fun sin hdin ↦ ?_⟩
  obtain ⟨hon, hsin⟩ := hload k sin hdin
  rw [← he k]
  exact hc.readsBack_iff hb hon hk htype hsin

/-- An entry can be added to the root of an image of 64 blocks. -/
theorem addEntry_sample (name : CStr) (hlen : name.1.length ≤ 255) :
    ∃ s₀ s ci, createSfs 64 (fun _ ↦ zero) (fun _ ↦ 0) zero = .ok s₀ ∧
      (runOps [.entry 1 1 name]).run s₀ = .ok () s ∧ s.inodes 1 = some ci ∧
      ci.inode.type = sfsTypeDir := by
  obtain ⟨s₀, hcreate⟩ : ∃ s₀, createSfs 64 (fun _ ↦ zero) (fun _ ↦ 0) zero = .ok s₀ := ⟨_, rfl⟩
  obtain ⟨hb, hmin, hnext, -, -⟩ := createSfs_built hcreate
  have hninos : s₀.ninos = 64 := hmin
  obtain ⟨ci, hk, htype⟩ := hb.root
  rcases addEntry_cases hb hk htype hk name hlen with
    ⟨b, s, L, owner, hrun, hb', hg, -⟩ | ⟨e, s, -, hspace | hbig⟩
  · obtain ⟨ci', hk', htype'⟩ := hg.inode 1 ci hk
    refine ⟨s₀, s, ci', hcreate, ?_, hk', htype'.trans htype⟩
    have hop : (MkOp.entry 1 1 name).run.run s₀ = .ok () s := bind_of_ok hrun _
    exact (bind_of_ok hop _).trans rfl
  · have hfirst : firstIno 64 = 3 := rfl
    rw [hnext, hninos, hfirst] at hspace
    omega
  · exact absurd hbig (by decide)

/-- The name `.`. -/
def dotName : CStr := ⟨[46], by simp⟩

/-- The entry `.` of the root. -/
theorem mksfs_dirent_iff_sample : ∃ s₀ s img',
    createSfs 64 (fun _ ↦ zero) (fun _ ↦ 0) zero = .ok s₀ ∧
      (runOps [.entry 1 1 dotName]).run s₀ = .ok () s ∧
      closeSfs.run s = .ok () (s.withImg img') ∧ ∀ dev : Device, dev.HasImage s.ninos img' →
        ∃ m, sfsDoMount.run dev = .ok m dev ∧
          ∀ sin : SfsInode, sin.din = SfsDiskInode.ofBytes (dev.blk 1) →
            ReadsBack (m.setInode 1 sin) 1 0 (1, dotName) := by
  obtain ⟨s₀, s, ci, hcreate, hops, hk, htype⟩ := addEntry_sample dotName (by decide)
  obtain ⟨img', hclose, hall⟩ := mksfs_dirent_iff hcreate hops hk htype
  refine ⟨s₀, s, img', hcreate, hops, hclose, fun dev hdev ↦ ?_⟩
  obtain ⟨m, hmount, hiff⟩ := hall dev hdev
  refine ⟨m, hmount, fun sin hdin ↦ (hiff sin hdin).mpr ⟨?_, by decide, ?_⟩ 0 (by decide)⟩
  · intro e he
    rw [List.mem_singleton.mp he]
    change 1 ≤ 252
    omega
  · intro e he e' he' _
    rw [List.mem_singleton.mp he, List.mem_singleton.mp he']

/-- An entry whose name has 253 characters, which `add_entry` accepts: the kernel reads another
name. -/
theorem mksfs_dirent_long : ∃ (name : CStr) (s₀ s : MkSfs) (img' : ℕ → Bytes) (dev : Device)
    (m : SfsFs), name.1 = List.replicate 253 97 ∧
    createSfs 64 (fun _ ↦ zero) (fun _ ↦ 0) zero = .ok s₀ ∧
      (runOps [.entry 1 1 name]).run s₀ = .ok () s ∧ closeSfs.run s = .ok () (s.withImg img') ∧
      dev.HasImage s.ninos img' ∧ sfsDoMount.run dev = .ok m dev ∧
      ∀ sin : SfsInode, sin.din = SfsDiskInode.ofBytes (dev.blk 1) →
        ∃ entry, (sfsDirentReadNolock 1 0).run (m.setInode 1 sin) = .ok entry (m.setInode 1 sin) ∧
          entry.str ≠ name.1 := by
  obtain ⟨name, hname⟩ : ∃ name : CStr, name.1 = List.replicate 253 97 :=
    ⟨⟨List.replicate 253 97, fun c hc ↦ by rw [List.eq_of_mem_replicate hc]; decide⟩, rfl⟩
  have hlen : name.1.length = 253 := by rw [hname, List.length_replicate]
  obtain ⟨s₀, s, ci, hcreate, hops, hk, htype⟩ := addEntry_sample name (by omega)
  obtain ⟨img', L, owner, hclose, hb, hc, he⟩ := dir_closed hcreate hops
  have hlt : s.ninos < 2 ^ 20 := hb.ok.ninos_le.trans_lt (by decide)
  have hdev : Device.HasImage ⟨s.ninos, img', [], hlt⟩ s.ninos img' :=
    ⟨rfl, le_rfl, fun _ _ _ _ ↦ rfl⟩
  obtain ⟨m, hmount, -, hload⟩ := hc.onImage hb.ok hdev
  refine ⟨name, s₀, s, img', _, m, hname, hcreate, hops, hclose, hdev, hmount, fun sin hdin ↦ ?_⟩
  obtain ⟨hon, hsin⟩ := hload 1 sin hdin
  have hentries : L.entries 1 = [(1, name)] := he 1
  obtain ⟨-, hread⟩ := hc.dirent_read hb hon hk htype hsin
  rw [hentries] at hread
  obtain ⟨entry, hok, -, -, hiff⟩ := hread 0 Nat.zero_lt_one
  exact ⟨entry, hok, fun heq ↦ absurd (hiff.mp heq) (by rw [List.getElem_cons_zero, hlen]; decide)⟩

end Ucore
