import Ucore.Mksfs.Build
import Ucore.Sfs.Mount

/-!
# Closing an image

`close_sfs` writes the freemap, the superblock and what is in memory. It always returns, each block
it writes ends up with the contents it has in memory, and it touches no block of data.
-/

namespace Ucore

open Bytes Prog

/-! ## The buffers of the freemap -/

theorem bit_foldl_set (l : List ℕ) (b : Bitmap) (j : ℕ) :
    (l.foldl Bitmap.set b).bit j = (b.bit j || decide (j ∈ l)) := by
  induction l generalizing b with
  | nil => simp
  | cons i l ih =>
    rw [List.foldl_cons, ih, Bitmap.bit_set, Bool.or_assoc, ← Bool.decide_or]
    simp only [List.mem_cons]

/-- The bits of a buffer are those of the blocks from the next unallocated one on. -/
theorem bit_closeBuffer {ninos nextIno i j : ℕ} (hj : j < 32768) :
    (closeBuffer ninos nextIno i).bit j = decide (nextIno ≤ i + j ∧ i + j < ninos) := by
  have hempty : (⟨32768, 1024, fun _ ↦ 0⟩ : Bitmap).bit j = false := by
    rw [Bitmap.bit]
    exact BitVec.getLsbD_zero
  rw [closeBuffer, sfsBlkbits_eq]
  dsimp only
  by_cases hnext : nextIno < i + 32768
  · rw [if_pos hnext, bit_foldl_set, hempty, Bool.false_or, decide_eq_decide, List.mem_range'_1]
    split_ifs <;> omega
  · rw [if_neg hnext, hempty]
    exact (decide_eq_false fun hc ↦ by omega).symm

theorem bitmapGetdata_congr {b c : Bitmap} {i i' : ℕ} (hmod : i % 4 = i' % 4)
    (h : ∀ k < 32, b.bit (32 * (i / 4) + k) = c.bit (32 * (i' / 4) + k)) :
    bitmapGetdata b i = bitmapGetdata c i' := by
  have hword : b.map (i / 4) = c.map (i' / 4) := by
    refine BitVec.eq_of_getLsbD_eq fun k hk ↦ ?_
    have hbit := h k hk
    rw [Bitmap.bit, Bitmap.bit] at hbit
    have hdiv : ∀ w, (32 * w + k) / 32 = w := fun w ↦ by omega
    have hoff : ∀ w, (32 * w + k) % 32 = k := fun w ↦ by omega
    rwa [hdiv, hdiv, hoff, hoff] at hbit
  rw [bitmapGetdata, bitmapGetdata, hword, hmod]

/-- The bits of the bytes in which a map is laid out. -/
theorem testBit_bitmapGetdata (b : Bitmap) (i : ℕ) {r : ℕ} (hr : r < 8) :
    (bitmapGetdata b i).toNat.testBit r = b.bit (8 * i + r) := by
  have hdiv : (8 * i + r) / 32 = i / 4 := by omega
  have hoff : (8 * i + r) % 32 = 8 * (i % 4) + r := by omega
  have hpow : 256 ^ (i % 4) = 2 ^ (8 * (i % 4)) := by
    rw [Nat.pow_mul]
  rw [bitmapGetdata, leByte_toNat, hpow, show 256 = 2 ^ 8 from rfl, Nat.testBit_mod_two_pow,
    decide_eq_true hr, Bool.true_and, Nat.testBit_div_two_pow, Bitmap.bit, hdiv, hoff,
    BitVec.getLsbD, Nat.add_comm]

/-! ## Flushing -/

/-- The state with another image. -/
def MkSfs.withImg (s : MkSfs) (img : ℕ → Bytes) : MkSfs := { s with img := img }

/-- The block has what is in memory for `c`. -/
structure Content (s : MkSfs) (blk : Bytes) (c : ℕ) : Prop where
  cache : ∀ b, s.cache c = some b → Padded blk b 4096
  inode : ∀ ci, s.inodes c = some ci → Padded blk ci.inode.bytes MkInode.sizeof

/-- The blocks in `S` were flushed, and no block changed but for being flushed. -/
structure Flush (s : MkSfs) (img img' : ℕ → Bytes) (S : ℕ → Prop) : Prop where
  done : ∀ c, S c → Content s (img' c) c
  rest : ∀ c, img' c = img c ∨
    Content s (img' c) c ∧ ((∃ b, s.cache c = some b) ∨ ∃ ci, s.inodes c = some ci)

section Flush

variable {s : MkSfs} {L : MkLog} {owner : ℕ → ℕ} {img img' img'' : ℕ → Bytes} {S T : ℕ → Prop}

theorem Flush.refl (s : MkSfs) (img : ℕ → Bytes) : Flush s img img fun _ ↦ False :=
  ⟨fun _ hc ↦ hc.elim, fun _ ↦ .inl rfl⟩

theorem Flush.trans (h : Flush s img img' S) (h' : Flush s img' img'' T) :
    Flush s img img'' fun c ↦ S c ∨ T c where
  done c hc := by
    rcases hc with hc | hc
    · rcases h'.rest c with heq | ⟨hcont, -⟩
      · rw [heq]
        exact h.done c hc
      · exact hcont
    · exact h'.done c hc
  rest c := by
    rcases h'.rest c with heq | hcont
    · rw [heq]
      exact h.rest c
    · exact .inr hcont

theorem Flush.mono (h : Flush s img img' S) (hT : ∀ c, T c → S c) : Flush s img img' T :=
  ⟨fun c hc ↦ h.done c (hT c hc), h.rest⟩

/-- Writing one block that is in memory. -/
theorem Flush.single {c : ℕ} {blk : Bytes} (hcont : Content s blk c)
    (hc : (∃ b, s.cache c = some b) ∨ ∃ ci, s.inodes c = some ci) :
    Flush s img (Function.update img c blk) (· = c) where
  done d hd := by
    subst hd
    rw [Function.update_self]
    exact hcont
  rest d := by
    by_cases hdc : d = c
    · subst hdc
      rw [Function.update_self]
      exact .inr ⟨hcont, hc⟩
    · exact .inl (Function.update_of_ne hdc ..)

theorem MkOk.cache_lt_ninos (h : MkOk s L owner) {c : ℕ} {b : Bytes} (hc : s.cache c = some b) :
    c < s.ninos := (h.cache_lt c b hc).2.trans_le h.next_le

theorem MkOk.inode_lt_ninos (h : MkOk s L owner) {k : ℕ} {ci : CacheInode}
    (hk : s.inodes k = some ci) : k < s.ninos := by
  have := two_le_firstIno s.ninos
  have := h.first_le
  have := h.next_le
  rcases h.inode_lt k ci hk with rfl | ⟨-, hlt⟩
  · rw [sfsBlknRoot]
    omega
  · omega

theorem flushCacheBlocks_eq (h : MkOk s L owner) (l : List ℕ)
    (hl : ∀ c ∈ l, ∃ b, s.cache c = some b)
    (img : ℕ → Bytes) : ∃ img', (flushCacheBlocks l).run (s.withImg img) = .ok () (s.withImg img') ∧
      Flush s img img' (· ∈ l) := by
  induction l generalizing img with
  | nil => exact ⟨img, rfl, (Flush.refl s img).mono fun c hc ↦ List.not_mem_nil hc⟩
  | cons c l ih =>
    obtain ⟨b, hb⟩ := hl c List.mem_cons_self
    obtain ⟨blk, hwrite, hpad⟩ := writeBlock_eq (s := s.withImg img) b le_rfl (h.cache_lt_ninos hb)
    have hcont : Content s blk c := by
      refine ⟨fun b' hb' ↦ ?_, fun ci hci ↦ ?_⟩
      · rw [← Option.some.inj (hb.symm.trans hb')]
        exact hpad
      · cases (h.cache_inode c b hb).symm.trans hci
    obtain ⟨img', hrun, hflush⟩ := ih (fun d hd ↦ hl d (List.mem_cons_of_mem _ hd))
      (Function.update img c blk)
    refine ⟨img', ?_, ((Flush.single hcont (.inl ⟨b, hb⟩)).trans hflush).mono fun d hd ↦
      List.mem_cons.mp hd⟩
    rw [flushCacheBlocks, get_bind_run, show (s.withImg img).cache c = some b from hb]
    dsimp only
    rw [sfsBlksize_eq, bind_of_ok hwrite]
    exact hrun

theorem flushCacheInodes_eq (h : MkOk s L owner) (l : List ℕ)
    (hl : ∀ k ∈ l, ∃ ci, s.inodes k = some ci) (img : ℕ → Bytes) :
    ∃ img', (flushCacheInodes l).run (s.withImg img) = .ok () (s.withImg img') ∧
      Flush s img img' (· ∈ l) := by
  induction l generalizing img with
  | nil => exact ⟨img, rfl, (Flush.refl s img).mono fun c hc ↦ List.not_mem_nil hc⟩
  | cons k l ih =>
    obtain ⟨ci, hci⟩ := hl k List.mem_cons_self
    have hino := h.ino k ci hci
    obtain ⟨blk, hwrite, hpad⟩ := writeBlock_eq (s := s.withImg img) ci.inode.bytes
      (show MkInode.sizeof ≤ 4096 by decide) (h.inode_lt_ninos hci)
    have hcont : Content s blk k := by
      refine ⟨fun b hb ↦ ?_, fun ci' hci' ↦ ?_⟩
      · cases (h.cache_inode k b hb).symm.trans hci
      · rw [← Option.some.inj (hci.symm.trans hci')]
        exact hpad
    obtain ⟨img', hrun, hflush⟩ := ih (fun d hd ↦ hl d (List.mem_cons_of_mem _ hd))
      (Function.update img k blk)
    refine ⟨img', ?_, ((Flush.single hcont (.inr ⟨ci, hci⟩)).trans hflush).mono fun d hd ↦
      List.mem_cons.mp hd⟩
    rw [flushCacheInodes, bind_of_ok (getCi_eq (s := s.withImg img) hci), hino, bind_of_ok hwrite]
    exact hrun

theorem closeChains_eq (h : MkOk s L owner) (n i : ℕ) (hn : i + n ≤ hashListSize)
    (img : ℕ → Bytes) : ∃ img', (closeChains i n).run (s.withImg img) = .ok () (s.withImg img') ∧
      Flush s img img' fun c ↦ ∃ j, i ≤ j ∧ j < i + n ∧
        (c ∈ s.cacheTable j ∨ c ∈ s.inodeTable j) := by
  induction n generalizing i img with
  | zero =>
    refine ⟨img, rfl, (Flush.refl s img).mono ?_⟩
    rintro c ⟨j, hij, hji, -⟩
    omega
  | succ n ih =>
    obtain ⟨img₁, hrun₁, hflush₁⟩ := flushCacheBlocks_eq h (s.cacheTable i)
      (fun c hc ↦ (h.cacheTable c).mpr ⟨i, by omega, hc⟩) img
    obtain ⟨img₂, hrun₂, hflush₂⟩ := flushCacheInodes_eq h (s.inodeTable i)
      (fun k hk ↦ (h.inodeTable k).mpr ⟨i, by omega, hk⟩) img₁
    obtain ⟨img₃, hrun₃, hflush₃⟩ := ih (i + 1) (by omega) img₂
    refine ⟨img₃, ?_, ((hflush₁.trans hflush₂).trans hflush₃).mono ?_⟩
    · rw [closeChains, get_bind_run]
      exact (bind_of_ok hrun₁ _).trans ((bind_of_ok hrun₂ _).trans hrun₃)
    · rintro c ⟨j, hij, hji, hc⟩
      rcases hij.eq_or_lt with rfl | hlt
      · exact .inl hc
      · exact .inr ⟨j, hlt, by omega, hc⟩

theorem closeFreemap_eq {s : MkSfs} (n ino i : ℕ) (hn : ino + n ≤ s.ninos) (img : ℕ → Bytes) :
    ∃ img', (closeFreemap ino i n).run (s.withImg img) = .ok () (s.withImg img') ∧
      (∀ j < n, Padded (img' (ino + j))
        (bitmapGetdata (closeBuffer s.ninos s.nextIno (i + 32768 * j))) 4096) ∧
      ∀ c, c < ino ∨ ino + n ≤ c → img' c = img c := by
  induction n generalizing ino i img with
  | zero => exact ⟨img, rfl, fun j hj ↦ absurd hj (Nat.not_lt_zero j), fun _ _ ↦ rfl⟩
  | succ n ih =>
    obtain ⟨blk, hwrite, hpad⟩ := writeBlock_eq (s := s.withImg img)
      (bitmapGetdata (closeBuffer s.ninos s.nextIno i)) le_rfl (show ino < s.ninos by omega)
    obtain ⟨img', hrun, hdone, hrest⟩ := ih (ino + 1) (i + 32768) (by omega)
      (Function.update img ino blk)
    refine ⟨img', ?_, fun j hj ↦ ?_, fun c hc ↦ ?_⟩
    · rw [closeFreemap, get_bind_run, sfsBlksize_eq]
      exact (bind_of_ok hwrite _).trans hrun
    · cases j with
      | zero =>
        rw [Nat.add_zero, hrest ino (by omega), Function.update_self]
        exact hpad
      | succ j =>
        have hino : ino + (j + 1) = ino + 1 + j := by omega
        have hi : i + 32768 * (j + 1) = i + 32768 + 32768 * j := by omega
        rw [hino, hi]
        exact hdone j (by omega)
    · rw [hrest c (by omega), Function.update_of_ne (by omega)]

end Flush

/-! ## The closed image -/

/-- What `close_sfs` left on the image `img`. -/
structure Closed (s : MkSfs) (img : ℕ → Bytes) : Prop where
  super : Padded (img sfsBlknSuper) s.super.bytes SfsSuper.size
  freemap : ∀ i < 4096 * (firstIno s.ninos - 2), img (sfsBlknFreemap + i / 4096) (i % 4096) =
    bitmapGetdata (Bitmap.ofPred (32768 * (firstIno s.ninos - 2)) fun b ↦
      decide (s.nextIno ≤ b ∧ b < s.ninos)) i
  content : ∀ c, Content s (img c) c
  rest : ∀ b, firstIno s.ninos ≤ b → s.cache b = none → s.inodes b = none → img b = s.img b

section Closed

variable {s : MkSfs} {L : MkLog} {owner : ℕ → ℕ}

/-- The blocks before the first one handed out are none of those in memory, the root apart. -/
theorem MkOk.not_in_memory (h : MkOk s L owner) {c : ℕ} (hc : c < firstIno s.ninos)
    (hroot : c ≠ sfsBlknRoot) :
    ¬((∃ b, s.cache c = some b) ∨ ∃ ci, s.inodes c = some ci) := by
  rintro (⟨b, hb⟩ | ⟨ci, hci⟩)
  · exact absurd (h.cache_lt c b hb).1 (not_le.mpr hc)
  · rcases h.inode_lt c ci hci with heq | ⟨hle, -⟩
    · exact hroot heq
    · exact absurd hle (not_le.mpr hc)

/-- `close_sfs` returns. -/
theorem closeSfs_eq (h : MkOk s L owner) :
    ∃ img, closeSfs.run s = .ok () (s.withImg img) ∧ Closed s img := by
  have hfirst : sfsBlknFreemap + (s.ninos + (sfsBlkbits - 1)) / sfsBlkbits = firstIno s.ninos := rfl
  have htwo := two_le_firstIno s.ninos
  have hle := h.first_le.trans h.next_le
  obtain ⟨n, hn⟩ : ∃ n, n = (s.ninos + (sfsBlkbits - 1)) / sfsBlkbits := ⟨_, rfl⟩
  have hn' : n = firstIno s.ninos - 2 := by
    rw [← hfirst, ← hn, sfsBlknFreemap, Nat.add_sub_cancel_left]
  have hfm : sfsBlknFreemap = 2 := rfl
  obtain ⟨img₁, hrun₁, hdone₁, hrest₁⟩ := closeFreemap_eq (s := s) n sfsBlknFreemap 0
    (by omega) s.img
  obtain ⟨blk, hwrite, hpad⟩ := writeBlock_eq (s := s.withImg img₁)
    (b := sfsBlknSuper) s.super.bytes (show SfsSuper.size ≤ 4096 by decide)
    (show 0 < s.ninos by omega)
  obtain ⟨img₃, hrun₃, hflush⟩ := closeChains_eq h hashListSize 0 (Nat.zero_add _).le
    (Function.update img₁ sfsBlknSuper blk)
  have hsuper : sfsBlknSuper ≠ sfsBlknRoot := by decide
  have hlow : ∀ c, c < firstIno s.ninos → c ≠ sfsBlknRoot →
      img₃ c = Function.update img₁ sfsBlknSuper blk c := fun c hc hroot ↦
    (hflush.rest c).resolve_right fun hcont ↦ h.not_in_memory hc hroot hcont.2
  refine ⟨img₃, ?_, ⟨?_, fun i hi ↦ ?_, fun c ↦ ⟨fun b hb ↦ ?_, fun ci hci ↦ ?_⟩,
    fun b hb hcache hinode ↦ ?_⟩⟩
  · rw [closeSfs, get_bind_run, ← hn]
    exact (bind_of_ok hrun₁ _).trans ((bind_of_ok hwrite _).trans hrun₃)
  · rw [hlow sfsBlknSuper (by rw [sfsBlknSuper]; omega) hsuper, Function.update_self]
    exact hpad
  · have hj : i / 4096 < n := by omega
    have hne : sfsBlknFreemap + i / 4096 ≠ sfsBlknSuper := by
      rw [sfsBlknSuper]
      omega
    rw [hlow _ (by omega) (by rw [sfsBlknRoot]; omega), Function.update_of_ne hne,
      (hdone₁ _ hj).data _ (Nat.mod_lt _ (by decide))]
    refine bitmapGetdata_congr (by omega) fun k hk ↦ ?_
    have hin : 32 * (i / 4) + k < 32768 * (firstIno s.ninos - 2) := by omega
    rw [bit_closeBuffer (by omega), Bitmap.bit_ofPred, decide_eq_true hin, Bool.true_and,
      decide_eq_decide]
    have hbit : 0 + 32768 * (i / 4096) + (32 * (i % 4096 / 4) + k) = 32 * (i / 4) + k := by omega
    rw [hbit]
  · obtain ⟨j, hj, hmem⟩ := (h.cacheTable c).mp ⟨b, hb⟩
    exact (hflush.done c ⟨j, Nat.zero_le j, by omega, .inl hmem⟩).cache b hb
  · obtain ⟨j, hj, hmem⟩ := (h.inodeTable c).mp ⟨ci, hci⟩
    exact (hflush.done c ⟨j, Nat.zero_le j, by omega, .inr hmem⟩).inode ci hci
  · rcases hflush.rest b with heq | ⟨-, ⟨x, hx⟩ | ⟨ci, hci⟩⟩
    · rw [heq, Function.update_of_ne (by rw [sfsBlknSuper]; omega), hrest₁ b (.inr (by omega))]
    · cases hcache.symm.trans hx
    · cases hinode.symm.trans hci

end Closed

/-! ## Mounting a closed image -/

/-- Bit `b` of the freemap on an image. -/
def freemapBit (img : ℕ → Bytes) (b : ℕ) : Bool :=
  (img (sfsBlknFreemap + b / 32768) (b % 32768 / 8)).toNat.testBit (b % 8)

/-- The device has the image on it. -/
structure Device.HasImage (dev : Device) (ninos : ℕ) (img : ℕ → Bytes) : Prop where
  faults : dev.faults = []
  ninos_le : ninos ≤ dev.dBlocks
  blk : ∀ b < ninos, ∀ i < 4096, dev.blk b i = img b i

section Mount

variable {s : MkSfs} {L : MkLog} {owner : ℕ → ℕ} {img : ℕ → Bytes}

/-- The freemap of a closed image marks free exactly the blocks that were not handed out. -/
theorem Closed.freemapBit_eq (hc : Closed s img) {b : ℕ}
    (hb : b < 32768 * (firstIno s.ninos - 2)) :
    freemapBit img b = decide (s.nextIno ≤ b ∧ b < s.ninos) := by
  have hblk : b / 8 / 4096 = b / 32768 := by omega
  have hoff : b / 8 % 4096 = b % 32768 / 8 := by omega
  have hbyte := hc.freemap (b / 8) (by omega)
  rw [hblk, hoff] at hbyte
  rw [freemapBit, hbyte, testBit_bitmapGetdata _ _ (Nat.mod_lt _ (by decide)), Nat.div_add_mod,
    Bitmap.bit_ofPred, decide_eq_true hb, Bool.true_and]

/-- A closed image mounts. -/
theorem Closed.mount (h : MkOk s L owner) (hc : Closed s img) {dev : Device}
    (hdev : dev.HasImage s.ninos img) :
    ∃ m, sfsDoMount.run dev = .ok m dev ∧ m.Ok ∧ m.dev = dev ∧ m.super.blocks = s.ninos ∧
      m.super.unusedBlocks = s.ninos - s.nextIno ∧ (∀ k, m.inodes k = none) ∧
      ∀ b, m.freemap.isFree b = true ↔ s.nextIno ≤ b ∧ b < s.ninos := by
  have hblocks := h.blocks
  have hfits := h.first_le.trans h.next_le
  have hnb : firstIno s.ninos - 2 = (s.ninos + 32767) / 32768 := by
    rw [firstIno, sfsBlknFreemap, sfsBlkbits_eq, Nat.add_sub_cancel_left]
  have hnb' : sfsFreemapBlocks s.super = firstIno s.ninos - 2 := by
    rw [sfsFreemapBlocks, MkSfs.super, hblocks, firstIno, sfsBlknFreemap, Nat.add_sub_cancel_left]
  have htwo := two_le_firstIno s.ninos
  set map := Bitmap.ofPred (32768 * (firstIno s.ninos - 2)) fun b ↦
    decide (s.nextIno ≤ b ∧ b < s.ninos) with hmap
  have hfree : ∀ b, map.isFree b = true ↔ s.nextIno ≤ b ∧ b < s.ninos := fun b ↦ by
    rw [hmap, Bitmap.isFree_ofPred, Bool.and_eq_true, decide_eq_true_iff, decide_eq_true_iff]
    exact ⟨And.right, fun hb ↦ ⟨by omega, hb⟩⟩
  have hcount : map.freeCount = s.ninos - s.nextIno := by
    rw [hmap, Bitmap.freeCount_ofPred (Finset.Ico s.nextIno s.ninos) fun b ↦ ?_, Nat.card_Ico]
    rw [Finset.mem_Ico, decide_eq_true_iff]
    exact ⟨fun hb ↦ ⟨by omega, hb⟩, And.right⟩
  have hwf : map.Wf := hmap ▸ Bitmap.wf_ofPred _ _
  set m : SfsFs := ⟨s.super.terminate, dev, map, false, fun _ ↦ none, []⟩ with hm
  have hok : m.Ok := by
    refine ⟨⟨hdev.faults, ?_⟩, hwf, ?_, h.unused.trans hcount.symm⟩
    · exact hblocks.le.trans hdev.ninos_le
    · change s.blocks ≤ 32768 * (firstIno s.ninos - 2)
      omega
  have hinfo : s.super.terminate.info 31 = 0 := by
    rw [SfsSuper.terminate]
    exact Function.update_self (31 : Fin 32) (0 : UInt8) s.super.info
  have hbits : sfsFreemapBits s.super.terminate = 32768 * (firstIno s.ninos - 2) := by
    rw [← hnb', sfsFreemapBlocks, sfsFreemapBits, sfsBlkbits_eq, Nat.mul_comm]
    rfl
  have hfm : sfsBlknFreemap + sfsFreemapBlocks s.super ≤ s.ninos := by
    rw [hnb', sfsBlknFreemap]
    omega
  have hmount : m.Mountable := ⟨rfl, hinfo, hbits.symm, hfm.trans hblocks.ge⟩
  have hholds : m.dev.Holds s.super m.freemap := by
    refine ⟨fun i hi ↦ ?_, fun i hi ↦ ?_⟩
    · rw [hdev.blk sfsBlknSuper (by rw [sfsBlknSuper]; omega) i (by omega), hc.super.data i hi]
    · rw [hnb'] at hi
      rw [hdev.blk _ (by rw [sfsBlknFreemap]; omega) _ (Nat.mod_lt _ (by decide)), hc.freemap i hi]
  obtain ⟨m', hrun, hre⟩ := SfsFs.sfsDoMount_eq hok hmount rfl hholds
  refine ⟨m', hrun, hre.ok, hre.dev, ?_, ?_, hre.inodes, fun b ↦ ?_⟩
  · rw [hre.super]
    exact hblocks
  · rw [hre.super]
    exact h.unused
  · rw [hre.isFree]
    exact hfree b

end Mount

/-- An image of any size and after any run of operations that succeeds can be closed; its freemap
marks free exactly the blocks from the next unallocated one on and below the size of the image, and
`mksfs` wrote none of those. A device with the image mounts, with the number of free blocks that the
superblock gives, and every other block is in use for the kernel. -/
theorem mksfs_mounts {imgBlocks : ℕ} {img : ℕ → Bytes} {info : Fin 32 → UInt8} {entry : Bytes}
    {ops : List MkOp} {s₀ s : MkSfs} (hcreate : createSfs imgBlocks img info entry = .ok s₀)
    (hops : (runOps ops).run s₀ = .ok () s) :
    ∃ img', closeSfs.run s = .ok () (s.withImg img') ∧
      (∀ b < 32768 * (firstIno s.ninos - 2),
        freemapBit img' b = true ↔ s.nextIno ≤ b ∧ b < s.ninos) ∧
      (∀ b, s.nextIno ≤ b → img' b = img b) ∧
      ∀ dev : Device, dev.HasImage s.ninos img' → ∃ m, sfsDoMount.run dev = .ok m dev ∧
        m.super.blocks = s.ninos ∧ m.super.unusedBlocks = s.ninos - s.nextIno ∧
        m.freemap.freeCount = m.super.unusedBlocks ∧
        ∀ b, m.freemap.isFree b = true ↔ s.nextIno ≤ b ∧ b < s.ninos := by
  obtain ⟨hbuilt, -, -, -, himg⟩ := createSfs_built hcreate
  have hrun := runOps_sat hbuilt ops
  rw [hops] at hrun
  obtain ⟨L, owner, hb, hg, -⟩ := hrun
  obtain ⟨img', hclose, hc⟩ := closeSfs_eq hb.ok
  refine ⟨img', hclose, fun b hlt ↦ ?_, fun b hle ↦ ?_, fun dev hdev ↦ ?_⟩
  · rw [hc.freemapBit_eq hlt, decide_eq_true_iff]
  · have hcache : s.cache b = none := by
      by_contra hne
      obtain ⟨x, hx⟩ := Option.ne_none_iff_exists'.mp hne
      exact absurd (hb.ok.cache_lt b x hx).2 (not_lt.mpr hle)
    have hinode : s.inodes b = none := by
      by_contra hne
      obtain ⟨ci, hci⟩ := Option.ne_none_iff_exists'.mp hne
      have hfirst := hb.ok.first_le
      have htwo := two_le_firstIno s.ninos
      rcases hb.ok.inode_lt b ci hci with heq | ⟨-, hlt⟩
      · rw [sfsBlknRoot] at heq
        omega
      · omega
    rw [hc.rest b (hb.ok.first_le.trans hle) hcache hinode, hg.above b hle, himg]
  · obtain ⟨m, hm, hok, -, hblocks, hunused, -, hfree⟩ := hc.mount hb.ok hdev
    exact ⟨m, hm, hblocks, hunused, hok.unused.symm, hfree⟩

/-- An image of 40 blocks with one directory. -/
theorem mksfs_mounts_sample : ∃ s₀ s, createSfs 40 (fun _ ↦ zero) (fun _ ↦ 0) zero = .ok s₀ ∧
    (runOps [.dir 5]).run s₀ = .ok () s ∧ s.nextIno = 4 ∧
    ∃ img', closeSfs.run s = .ok () (s.withImg img') ∧
      ∀ b < 32768, freemapBit img' b = true ↔ 4 ≤ b ∧ b < 40 := by
  refine ⟨_, _, rfl, rfl, rfl, ?_⟩
  obtain ⟨img', hclose, hbit, -⟩ := mksfs_mounts
    (show createSfs 40 (fun _ ↦ zero) (fun _ ↦ 0) zero = .ok _ from rfl)
    (show (runOps [.dir 5]).run _ = .ok () _ from rfl)
  exact ⟨img', hclose, hbit⟩

end Ucore
