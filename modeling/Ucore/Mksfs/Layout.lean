import Ucore.Mksfs.Image

/-!
# What is on the image while it is built

`MkOk` is the invariant of a run of `mksfs`: every block number handed out has at most one use, the
counter of unused blocks is right, and the inodes in memory, with the blocks of indirect entries,
map the blocks that were appended to them.

## The layout of an inode

`Layout` says that a cache inode maps a list of blocks: the first twelve are in the inode, the next
1024 in the entry block that `indirect` names, the rest in entry blocks behind `db_indirect`. The
pointers `l1` and `l2` are part of it, as `append_block` goes on from them: below 1036 blocks `l1`
is the entry block of `indirect`, and above it is the entry block that was begun last, which the
words of the doubly indirect block end with (`DbSlots`). `owner` tells whose a cache block is, so
that a store for one inode leaves the layout of the others.

`append_block` keeps the invariant, and can only fail because the image or the file is too big.
-/

namespace Ucore

open Bytes Prog

/-- What a run of `mksfs` did: the blocks appended to each inode and the entries added to each
directory, in order. -/
structure MkLog where
  stored : ℕ → List ℕ
  entries : ℕ → List (ℕ × CStr)

/-- One more block was appended to inode `k`. -/
def MkLog.append (L : MkLog) (k b : ℕ) : MkLog :=
  { L with stored := Function.update L.stored k (L.stored k ++ [b]) }

theorem MkLog.append_stored_self (L : MkLog) (k b : ℕ) :
    (L.append k b).stored k = L.stored k ++ [b] := Function.update_self ..

theorem MkLog.append_stored_of_ne (L : MkLog) {j k : ℕ} (h : j ≠ k) (b : ℕ) :
    (L.append k b).stored j = L.stored j := Function.update_of_ne h ..

/-- The first number `sfs_alloc_ino` hands out: those before are the superblock, the root and the
freemap. -/
def firstIno (ninos : ℕ) : ℕ := sfsBlknFreemap + (ninos + (sfsBlkbits - 1)) / sfsBlkbits

/-- Cache block `c` belongs to inode `k` and has the entries of the blocks from the twelfth on. -/
def Slots (cache : ℕ → Option Bytes) (owner : ℕ → ℕ) (k c : ℕ) (bs : List ℕ) : Prop :=
  ∃ b, cache c = some b ∧ owner c = k ∧
    ∀ i n, bs[i]? = some n → 12 ≤ i → i < 1036 → read32 b (4 * (i - 12)) = n

/-- The inode has its doubly indirect block at hand, and the entry block that word `q` of it names;
the words after it are empty. -/
def DbSlots (cache : ℕ → Option Bytes) (owner : ℕ → ℕ) (k : ℕ) (ci : CacheInode) (q : ℕ) : Prop :=
  ∃ b w, ci.l2 = some ci.inode.dbIndirect ∧ ci.l1 = some w ∧
    cache ci.inode.dbIndirect = some b ∧ (∃ b', cache w = some b') ∧
    owner ci.inode.dbIndirect = k ∧ owner w = k ∧
    ci.inode.dbIndirect ≠ ci.inode.indirect ∧ w ≠ ci.inode.indirect ∧ w ≠ ci.inode.dbIndirect ∧
    read32 b (4 * q) = w ∧ ∀ j, q < j → read32 b (4 * j) = 0

/-- The cache inode maps the blocks `bs`. The cache blocks it uses are its own. -/
structure Layout (cache : ℕ → Option Bytes) (owner : ℕ → ℕ) (k : ℕ) (ci : CacheInode)
    (bs : List ℕ) : Prop where
  nblks : ci.nblks = bs.length
  blocks : ci.inode.blocks = bs.length
  length_le : bs.length ≤ 32768
  direct : ∀ i n, bs[i]? = some n → ∀ h : i < 12, ci.inode.direct ⟨i, h⟩ = n
  noIndirect : bs.length ≤ 12 → ci.inode.indirect = 0
  slots : 12 < bs.length → Slots cache owner k ci.inode.indirect bs
  l1 : 12 < bs.length → bs.length ≤ 1036 → ci.l1 = some ci.inode.indirect
  noDb : bs.length ≤ 1036 → ci.inode.dbIndirect = 0
  db : 1036 < bs.length → DbSlots cache owner k ci ((bs.length - 1037) / 1024)

/-- The number is in one of the chains of a hash table. -/
def InTable (table : ℕ → List ℕ) (c : ℕ) : Prop := ∃ i < hashListSize, c ∈ table i

/-- The invariant of a run. `owner` says whose a cache block is. -/
structure MkOk (s : MkSfs) (L : MkLog) (owner : ℕ → ℕ) : Prop where
  ninos_le : s.ninos ≤ 524288
  blocks : s.blocks = s.ninos
  first_le : firstIno s.ninos ≤ s.nextIno
  next_le : s.nextIno ≤ s.ninos
  unused : s.unusedBlocks = s.ninos - s.nextIno
  inode_lt : ∀ k ci, s.inodes k = some ci → k = sfsBlknRoot ∨ firstIno s.ninos ≤ k ∧ k < s.nextIno
  cache_lt : ∀ c b, s.cache c = some b → firstIno s.ninos ≤ c ∧ c < s.nextIno
  data_lt : ∀ k, ∀ b ∈ L.stored k, firstIno s.ninos ≤ b ∧ b < s.nextIno
  cache_inode : ∀ c b, s.cache c = some b → s.inodes c = none
  data_free : ∀ k, ∀ b ∈ L.stored k, s.cache b = none ∧ s.inodes b = none
  stored_nil : ∀ k, s.inodes k = none → L.stored k = []
  cacheTable : ∀ c, (∃ b, s.cache c = some b) ↔ InTable s.cacheTable c
  inodeTable : ∀ k, (∃ ci, s.inodes k = some ci) ↔ InTable s.inodeTable k
  ino : ∀ k ci, s.inodes k = some ci → ci.ino = k
  layout : ∀ k ci, s.inodes k = some ci → Layout s.cache owner k ci (L.stored k)

/-- Block `b` was handed out and has no use yet. -/
structure Fresh (s : MkSfs) (L : MkLog) (b : ℕ) : Prop where
  first_le : firstIno s.ninos ≤ b
  lt : b < s.nextIno
  cache : s.cache b = none
  inodes : s.inodes b = none
  stored : ∀ k, b ∉ L.stored k

/-! ## Appending to a layout -/

section Layout

variable {cache cache' : ℕ → Option Bytes} {owner owner' : ℕ → ℕ} {k : ℕ} {ci ci' : CacheInode}
  {bs : List ℕ}

theorem getElem?_concat (bs : List ℕ) (b i : ℕ) :
    (bs ++ [b])[i]? = if i = bs.length then some b else bs[i]? := by
  rcases lt_trichotomy i bs.length with h | rfl | h
  · rw [List.getElem?_append_left h, if_neg h.ne]
  · rw [List.getElem?_concat_length, if_pos rfl]
  · rw [if_neg h.ne', List.getElem?_eq_none (by simp; omega), List.getElem?_eq_none (by omega)]

/-- A layout only depends on the inode's own cache blocks. -/
theorem Layout.congr (h : Layout cache owner k ci bs)
    (hc : ∀ c b, cache c = some b → owner c = k → cache' c = some b ∧ owner' c = k) :
    Layout cache' owner' k ci bs :=
  { h with
    slots := fun hlt ↦ by
      obtain ⟨b, hb, ho, hw⟩ := h.slots hlt
      obtain ⟨hb', ho'⟩ := hc _ b hb ho
      exact ⟨b, hb', ho', hw⟩
    db := fun hlt ↦ by
      obtain ⟨b, w, hl2, hl1, hb, ⟨b', hb'⟩, ho, how, hrest⟩ := h.db hlt
      obtain ⟨hbc, hoc⟩ := hc _ b hb ho
      obtain ⟨hwc, howc⟩ := hc _ b' hb' how
      exact ⟨b, w, hl2, hl1, hbc, ⟨b', hwc⟩, hoc, howc, hrest⟩ }

theorem Layout.count_blocks (h : Layout cache owner k ci bs) (hlt : bs.length < 32768) :
    (ci.inode.blocks + 1) % 2 ^ 32 = bs.length + 1 := by
  rw [h.blocks]
  omega

theorem Layout.append_direct (h : Layout cache owner k ci bs) (hlt : ci.nblks < 12) (b size : ℕ) :
    Layout cache owner k (CacheInode.count { ci with
      inode := { ci.inode with
        direct := Function.update ci.inode.direct ⟨ci.nblks, hlt⟩ b } } size) (bs ++ [b]) where
  nblks := by
    rw [List.length_append, ← h.nblks]
    rfl
  blocks := by
    rw [List.length_append]
    exact h.count_blocks (by rw [← h.nblks]; omega)
  length_le := by
    rw [List.length_append, List.length_singleton, ← h.nblks]
    omega
  direct i n hn hi := by
    change Function.update ci.inode.direct ⟨ci.nblks, hlt⟩ b ⟨i, hi⟩ = n
    rw [getElem?_concat] at hn
    by_cases hlast : i = bs.length
    · rw [if_pos hlast] at hn
      have hfin : (⟨i, hi⟩ : Fin 12) = ⟨ci.nblks, hlt⟩ := Fin.ext (hlast.trans h.nblks.symm)
      rw [hfin, Function.update_self, Option.some.inj hn]
    · rw [if_neg hlast] at hn
      rw [Function.update_of_ne fun hc ↦ hlast ((Fin.mk.inj hc).trans h.nblks), h.direct i n hn hi]
  noIndirect _ := h.noIndirect (by rw [← h.nblks]; omega)
  slots hlong := by
    rw [List.length_append, List.length_singleton, ← h.nblks] at hlong
    omega
  l1 hlong := by
    rw [List.length_append, List.length_singleton, ← h.nblks] at hlong
    omega
  noDb _ := h.noDb (by rw [← h.nblks]; omega)
  db hlong := by
    rw [List.length_append, List.length_singleton, ← h.nblks] at hlong
    omega

/-- Appending through the entry block `c`, which is the one the inode has or a new one. -/
theorem Layout.append_slot (h : Layout cache owner k ci bs) (h12 : 12 ≤ bs.length)
    (hlt : bs.length < 1036) {c : ℕ} {buf : Bytes} (ho : owner c = k)
    (hw : ∀ i n, bs[i]? = some n → 12 ≤ i → read32 buf (4 * (i - 12)) = n) {b : ℕ} (hb : b < 2 ^ 32)
    (size : ℕ) :
    Layout (Function.update cache c (some (memcpy buf (4 * (ci.nblks - 12)) (le b) 0 4))) owner k
      (CacheInode.count { ci with inode := { ci.inode with indirect := c }, l1 := some c } size)
      (bs ++ [b]) where
  nblks := by
    rw [List.length_append, ← h.nblks]
    rfl
  blocks := by
    rw [List.length_append]
    exact h.count_blocks (by omega)
  length_le := by
    rw [List.length_append, List.length_singleton]
    omega
  direct i n hn hi := by
    rw [getElem?_concat, if_neg (by omega)] at hn
    exact h.direct i n hn hi
  noIndirect hshort := by
    rw [List.length_append, List.length_singleton] at hshort
    omega
  slots _ := by
    refine ⟨_, Function.update_self .., ho, fun i n hn hi _ ↦ ?_⟩
    rw [getElem?_concat] at hn
    by_cases hlast : i = bs.length
    · rw [if_pos hlast] at hn
      rw [h.nblks, hlast, read32_memcpy_le _ _ hb, Option.some.inj hn]
    · rw [if_neg hlast] at hn
      rw [h.nblks, read32_memcpy_of_ne _ _ _ (by omega), hw i n hn hi]
  l1 _ _ := rfl
  noDb _ := h.noDb (by omega)
  db hlong := by
    rw [List.length_append, List.length_singleton] at hlong
    omega

/-- Appending through the doubly indirect block `d` and its entry block `w`. -/
theorem Layout.append_db (h : Layout cache owner k ci bs) (h1036 : 1036 ≤ bs.length)
    (hlt : bs.length < 32768) {d w : ℕ} {buf : Bytes} (hod : owner d = k) (how : owner w = k)
    (hne : w ≠ d)
    (hdi : d ≠ ci.inode.indirect) (hwi : w ≠ ci.inode.indirect) (hw32 : w < 2 ^ 32)
    (hzero : ∀ j, (bs.length - 1036) / 1024 < j → read32 buf (4 * j) = 0)
    (buf' : Bytes) (b size : ℕ) :
    Layout (Function.update
        (Function.update cache d (some (memcpy buf (4 * ((ci.nblks - 1036) / 1024)) (le w) 0 4))) w
        (some (memcpy buf' (4 * ((ci.nblks - 1036) % 1024)) (le b) 0 4))) owner k
      (CacheInode.count { ci with
        inode := { ci.inode with dbIndirect := d }, l1 := some w, l2 := some d } size)
      (bs ++ [b]) where
  nblks := by
    rw [List.length_append, ← h.nblks]
    rfl
  blocks := by
    rw [List.length_append]
    exact h.count_blocks hlt
  length_le := by
    rw [List.length_append, List.length_singleton]
    omega
  direct i n hn hi := by
    rw [getElem?_concat, if_neg (by omega)] at hn
    exact h.direct i n hn hi
  noIndirect hshort := by
    rw [List.length_append, List.length_singleton] at hshort
    omega
  slots _ := by
    obtain ⟨b', hb', ho', hslots⟩ := h.slots (by omega)
    refine ⟨b', ?_, ho', fun i n hn hi hlt' ↦ ?_⟩
    · exact (Function.update_of_ne hwi.symm ..).trans
        ((Function.update_of_ne hdi.symm ..).trans hb')
    · rw [getElem?_concat, if_neg (by omega)] at hn
      exact hslots i n hn hi hlt'
  l1 _ hshort := by
    rw [List.length_append, List.length_singleton] at hshort
    omega
  noDb hshort := by
    rw [List.length_append, List.length_singleton] at hshort
    omega
  db _ := by
    have hq : ((bs ++ [b]).length - 1037) / 1024 = (bs.length - 1036) / 1024 := by
      rw [List.length_append, List.length_singleton]
      omega
    rw [hq, ← h.nblks]
    refine ⟨_, w, rfl, rfl, (Function.update_of_ne hne.symm ..).trans (Function.update_self ..),
      ⟨_, Function.update_self ..⟩, hod, how, hdi, hwi, hne, read32_memcpy_le _ _ hw32,
      fun j hj ↦ ?_⟩
    rw [read32_memcpy_of_ne _ _ _ hj.ne]
    exact hzero j (h.nblks ▸ hj)

end Layout

/-! ## Handing out numbers and cache blocks -/

/-- `sfs_alloc_ino` took a number. -/
def MkSfs.take (s : MkSfs) : MkSfs :=
  { s with unusedBlocks := s.unusedBlocks - 1, nextIno := s.nextIno + 1 }

/-- `alloc_cache_block` made cache block `c`. -/
def MkSfs.addCache (s : MkSfs) (c : ℕ) : MkSfs :=
  { s with
    cache := Function.update s.cache c (some zero)
    cacheTable := Function.update s.cacheTable (hash32 0) (c :: s.cacheTable (hash32 0)) }

/-- Replace the contents of a cache block. -/
def MkSfs.setCache (s : MkSfs) (c : ℕ) (b : Bytes) : MkSfs :=
  { s with cache := Function.update s.cache c (some b) }

/-- Replace a cache inode. -/
def MkSfs.setCi (s : MkSfs) (k : ℕ) (ci : CacheInode) : MkSfs :=
  { s with inodes := Function.update s.inodes k (some ci) }

theorem MkSfs.setCi_inodes_self (s : MkSfs) (k : ℕ) (ci : CacheInode) :
    (s.setCi k ci).inodes k = some ci := Function.update_self ..

theorem MkSfs.setCi_inodes_of_ne (s : MkSfs) {j k : ℕ} (h : j ≠ k) (ci : CacheInode) :
    (s.setCi k ci).inodes j = s.inodes j := Function.update_of_ne h ..

theorem MkSfs.setCache_cache_self (s : MkSfs) (c : ℕ) (b : Bytes) :
    (s.setCache c b).cache c = some b := Function.update_self ..

theorem MkSfs.setCache_cache_of_ne (s : MkSfs) {c d : ℕ} (h : d ≠ c) (b : Bytes) :
    (s.setCache c b).cache d = s.cache d := Function.update_of_ne h ..

/-- What building the image leaves alone, and how many numbers it hands out at most. -/
structure MkFrame (s s' : MkSfs) (d : ℕ) : Prop where
  ninos : s'.ninos = s.ninos
  info : s'.info = s.info
  img : s'.img = s.img
  entry : s'.entry = s.entry
  le_next : s.nextIno ≤ s'.nextIno
  next_le : s'.nextIno ≤ s.nextIno + d

theorem MkFrame.trans {s t u : MkSfs} {d e : ℕ} (h : MkFrame s t d) (h' : MkFrame t u e) :
    MkFrame s u (d + e) where
  ninos := h'.ninos.trans h.ninos
  info := h'.info.trans h.info
  img := h'.img.trans h.img
  entry := h'.entry.trans h.entry
  le_next := h.le_next.trans h'.le_next
  next_le := by
    have := h.next_le
    have := h'.next_le
    omega

section Numbers

variable {s : MkSfs} {L : MkLog} {owner : ℕ → ℕ} {b c k : ℕ}

theorem hash32_lt (val : ℕ) : hash32 val < hashListSize := by
  rw [hash32, hashListSize]
  omega

theorem two_le_firstIno (ninos : ℕ) : 2 ≤ firstIno ninos := Nat.le_add_right ..

/-- Adding to the front of a chain. -/
theorem inTable_cons {table : ℕ → List ℕ} {a : ℕ} (ha : a < hashListSize) :
    InTable (Function.update table a (c :: table a)) b ↔ b = c ∨ InTable table b := by
  constructor
  · rintro ⟨i, hi, hb⟩
    by_cases hia : i = a
    · subst hia
      rw [Function.update_self, List.mem_cons] at hb
      exact hb.imp id fun hb ↦ ⟨i, hi, hb⟩
    · rw [Function.update_of_ne hia] at hb
      exact Or.inr ⟨i, hi, hb⟩
  · rintro (rfl | ⟨i, hi, hb⟩)
    · exact ⟨a, ha, by rw [Function.update_self]; exact List.mem_cons_self⟩
    · refine ⟨i, hi, ?_⟩
      by_cases hia : i = a
      · subst hia
        rw [Function.update_self]
        exact List.mem_cons_of_mem _ hb
      · rwa [Function.update_of_ne hia]

theorem sfsAllocIno_eq (h : s.nextIno < s.ninos) : sfsAllocIno.run s = .ok s.nextIno s.take := by
  rw [sfsAllocIno, get_bind_run, if_pos h]
  rfl

theorem sfsAllocIno_full (h : ¬s.nextIno < s.ninos) :
    sfsAllocIno.run s = .error .outOfDiskSpace s := by
  rw [sfsAllocIno, get_bind_run, if_neg h, run_fail]

theorem MkSfs.take_frame (s : MkSfs) : MkFrame s s.take 1 :=
  ⟨rfl, rfl, rfl, rfl, Nat.le_succ _, le_refl _⟩

theorem MkOk.take (h : MkOk s L owner) (hlt : s.nextIno < s.ninos) : MkOk s.take L owner :=
  { h with
    first_le := Nat.le_succ_of_le h.first_le
    next_le := hlt
    unused := by
      change s.unusedBlocks - 1 = s.ninos - (s.nextIno + 1)
      rw [h.unused, Nat.sub_sub]
    inode_lt := fun k ci hk ↦
      (h.inode_lt k ci hk).imp id fun hlt ↦ ⟨hlt.1, Nat.lt_succ_of_lt hlt.2⟩
    cache_lt := fun c b hc ↦ ⟨(h.cache_lt c b hc).1, Nat.lt_succ_of_lt (h.cache_lt c b hc).2⟩
    data_lt := fun k b hb ↦ ⟨(h.data_lt k b hb).1, Nat.lt_succ_of_lt (h.data_lt k b hb).2⟩ }

/-- The number that was just handed out is fresh. -/
theorem MkOk.fresh_take (h : MkOk s L owner) : Fresh s.take L s.nextIno where
  first_le := h.first_le
  lt := Nat.lt_succ_self _
  cache := by
    change s.cache s.nextIno = none
    by_contra hne
    obtain ⟨b, hb⟩ := Option.ne_none_iff_exists'.mp hne
    exact lt_irrefl _ (h.cache_lt _ b hb).2
  inodes := by
    change s.inodes s.nextIno = none
    by_contra hne
    obtain ⟨ci, hci⟩ := Option.ne_none_iff_exists'.mp hne
    have := two_le_firstIno s.ninos
    have := h.first_le
    rcases h.inode_lt _ ci hci with hroot | ⟨-, hlt⟩
    · rw [sfsBlknRoot] at hroot
      omega
    · exact lt_irrefl _ hlt
  stored k hk := lt_irrefl _ (h.data_lt k _ hk).2

theorem Fresh.take (h : Fresh s L b) : Fresh s.take L b :=
  { h with lt := Nat.lt_succ_of_lt h.lt }

theorem MkSfs.addCache_frame (s : MkSfs) (c : ℕ) : MkFrame s (s.addCache c) 0 :=
  ⟨rfl, rfl, rfl, rfl, le_refl _, le_refl _⟩

theorem MkSfs.addCache_cache_self (s : MkSfs) (c : ℕ) : (s.addCache c).cache c = some zero :=
  Function.update_self ..

theorem MkSfs.addCache_cache_of_ne (s : MkSfs) (h : b ≠ c) : (s.addCache c).cache b = s.cache b :=
  Function.update_of_ne h ..

/-- A fresh number becomes a cache block of `k`. -/
theorem MkOk.addCache (h : MkOk s L owner) (hc : Fresh s L c) (k : ℕ) :
    MkOk (s.addCache c) L (Function.update owner c k) := by
  have hold : ∀ c' b, s.cache c' = some b → c' ≠ c := by
    rintro c' b hb rfl
    rw [hc.cache] at hb
    cases hb
  exact { h with
    cache_lt := fun c' b hb ↦ by
      by_cases hne : c' = c
      · subst hne
        exact ⟨hc.first_le, hc.lt⟩
      · rw [MkSfs.addCache_cache_of_ne s hne] at hb
        exact h.cache_lt c' b hb
    cache_inode := fun c' b hb ↦ by
      by_cases hne : c' = c
      · exact hne ▸ hc.inodes
      · rw [MkSfs.addCache_cache_of_ne s hne] at hb
        exact h.cache_inode c' b hb
    data_free := fun j b hb ↦ by
      have hne : b ≠ c := fun hbc ↦ hc.stored j (hbc ▸ hb)
      rw [MkSfs.addCache_cache_of_ne s hne]
      exact h.data_free j b hb
    cacheTable := fun c' ↦ by
      refine Iff.trans ?_ ((or_congr_right (h.cacheTable c')).trans
        (inTable_cons (hash32_lt 0)).symm)
      by_cases hne : c' = c
      · subst hne
        exact ⟨fun _ ↦ Or.inl rfl, fun _ ↦ ⟨_, s.addCache_cache_self c'⟩⟩
      · rw [MkSfs.addCache_cache_of_ne s hne]
        exact ⟨Or.inr, fun hor ↦ hor.resolve_left hne⟩
    layout := fun j ci hj ↦ (h.layout j ci hj).congr fun c' b hb ho ↦ by
      have hne := hold c' b hb
      rw [MkSfs.addCache_cache_of_ne s hne, Function.update_of_ne hne]
      exact ⟨hb, ho⟩ }

end Numbers

end Ucore
