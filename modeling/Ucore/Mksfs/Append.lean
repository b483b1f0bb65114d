import Ucore.Mksfs.Layout

/-!
# Appending to an inode of the image

`append_block` keeps the invariant of a run, for every way it can go: a direct entry, an entry block
that exists or not, and behind it a doubly indirect block that exists or not. It fails only when the
file reaches `SFS_LN_NBLKS` blocks or the image is full.

The three ways have a lemma each (`appendBlock_direct`, `appendBlock_slot`, `appendBlock_db`). What
they share is that `update_cache` finds or makes a cache block (`Provided`), that words are set only
in the cache blocks of the inode, and that it then maps one more block (`MkOk.append`), with the
other inodes as before (`MkAppended`).
-/

namespace Ucore

open Bytes Prog

section Primitives

variable {s : MkSfs} {L : MkLog} {owner : ℕ → ℕ} {k : ℕ} {ci : CacheInode}

theorem getCi_eq (h : s.inodes k = some ci) : (getCi k).run s = .ok ci s := by
  rw [getCi, get_bind_run, h, run_pure]

theorem putCi_eq (s : MkSfs) (k : ℕ) (ci : CacheInode) :
    (putCi k ci).run s = .ok () (s.setCi k ci) := rfl

theorem loadWord_eq {c : ℕ} {b : Bytes} (h : s.cache c = some b) (j : ℕ) :
    (loadWord c j).run s = .ok (read32 b (4 * j)) s := by
  rw [loadWord, get_bind_run, h, run_pure]

theorem storeWord_eq {c : ℕ} {b : Bytes} (h : s.cache c = some b) (j n : ℕ) :
    (storeWord c j n).run s = .ok () (s.setCache c (memcpy b (4 * j) (le n) 0 4)) := by
  rw [storeWord, get_bind_run, h]
  rfl

/-- What `update_cache` did for inode `k`: cache block `c` is the one named by `n`, or it is new if
`n` is zero. -/
structure Provided (s : MkSfs) (L : MkLog) (owner : ℕ → ℕ) (k n c : ℕ) (s' : MkSfs)
    (owner' : ℕ → ℕ) : Prop where
  ok : MkOk s' L owner'
  frame : MkFrame s s' 1
  inodes : s'.inodes = s.inodes
  cached : ∃ b, s'.cache c = some b ∧ (n = 0 → b = zero)
  owned : owner' c = k
  eq_of_ne : n ≠ 0 → c = n
  new : n = 0 → s.cache c = none
  old : ∀ c' b, s.cache c' = some b → s'.cache c' = some b ∧ owner' c' = owner c'
  fresh : ∀ b, Fresh s L b → Fresh s' L b

theorem Fresh.addCache {b c : ℕ} (h : Fresh s L b) (hne : b ≠ c) : Fresh (s.addCache c) L b :=
  { h with cache := (s.addCache_cache_of_ne hne).trans h.cache }

theorem updateCache_cases (h : MkOk s L owner) (k : ℕ) {cbp : Option ℕ} {n : ℕ}
    (hn : n ≠ 0 → cbp = some n ∧ owner n = k ∧ ∃ b, s.cache n = some b) :
    (∃ c s' owner', (updateCache cbp n).run s = .ok c s' ∧ Provided s L owner k n c s' owner') ∨
      (updateCache cbp n).run s = .error .outOfDiskSpace s ∧ s.ninos ≤ s.nextIno := by
  by_cases hzero : n = 0
  · subst hzero
    by_cases hroom : s.nextIno < s.ninos
    · have hfresh := h.fresh_take
      have hold : ∀ c' b, s.cache c' = some b → c' ≠ s.nextIno :=
        fun c' b hb ↦ (h.cache_lt c' b hb).2.ne
      refine Or.inl ⟨s.nextIno, s.take.addCache s.nextIno, Function.update owner s.nextIno k, ?_,
        { ok := (h.take hroom).addCache hfresh k
          frame := s.take_frame.trans (s.take.addCache_frame _)
          inodes := rfl
          cached := ⟨zero, s.take.addCache_cache_self _, fun _ ↦ rfl⟩
          owned := Function.update_self ..
          eq_of_ne := fun hne ↦ absurd rfl hne
          new := fun _ ↦ hfresh.cache
          old := fun c' b hb ↦ ?_
          fresh := fun b hb ↦ hb.take.addCache hb.lt.ne }⟩
      · rw [updateCache, if_pos rfl, allocCacheBlock, if_neg (not_not.mpr rfl),
          bind_of_ok (sfsAllocIno_eq hroom)]
        rfl
      · have hne := hold c' b hb
        rw [s.take.addCache_cache_of_ne hne, Function.update_of_ne hne]
        exact ⟨hb, rfl⟩
    · refine Or.inr ⟨?_, not_lt.mp hroom⟩
      rw [updateCache, if_pos rfl, allocCacheBlock, if_neg (not_not.mpr rfl),
        bind_of_error (sfsAllocIno_full hroom)]
  · obtain ⟨hcbp, howner, b, hb⟩ := hn hzero
    refine Or.inl ⟨n, s, owner, ?_,
      { ok := h
        frame := ⟨rfl, rfl, rfl, rfl, le_refl _, Nat.le_succ _⟩
        inodes := rfl
        cached := ⟨b, hb, fun hn ↦ absurd hn hzero⟩
        owned := howner
        eq_of_ne := fun _ ↦ rfl
        new := fun hn ↦ absurd hn hzero
        old := fun _ _ hb ↦ ⟨hb, rfl⟩
        fresh := fun _ hb ↦ hb }⟩
    rw [updateCache, if_neg hzero, if_neg (not_not.mpr hcbp), run_pure]

end Primitives

/-! ## One more block -/

section Put

variable {s : MkSfs} {L : MkLog} {owner : ℕ → ℕ} {k b : ℕ} {ci ci' : CacheInode}
  {cache : ℕ → Option Bytes}

/-- A block was appended to `k`: its inode maps one more, and only its own cache blocks changed. -/
theorem MkOk.append (h : MkOk s L owner) (hk : s.inodes k = some ci) (hb : Fresh s L b)
    (hsome : ∀ c, (∃ x, cache c = some x) ↔ ∃ x, s.cache c = some x)
    (hothers : ∀ c x, s.cache c = some x → owner c ≠ k → cache c = some x)
    (hlay : Layout cache owner k ci' (L.stored k ++ [b])) (hino : ci'.ino = k) :
    MkOk ({ s with cache := cache }.setCi k ci') (L.append k b) owner := by
  have hnone : ∀ c, s.cache c = none → cache c = none := by
    intro c hc
    by_contra hne
    obtain ⟨x, hx⟩ := (hsome c).mp (Option.ne_none_iff_exists'.mp hne)
    rw [hc] at hx
    cases hx
  -- one block more is stored, and no other inode changes
  have hstored : ∀ j, ∀ d ∈ (L.append k b).stored j, d ∈ L.stored j ∨ d = b ∧ j = k := by
    intro j d hd
    by_cases hjk : j = k
    · subst hjk
      rw [L.append_stored_self] at hd
      rcases List.mem_append.mp hd with hold | hnew
      · exact Or.inl hold
      · exact Or.inr ⟨List.mem_singleton.mp hnew, rfl⟩
    · rw [L.append_stored_of_ne hjk] at hd
      exact Or.inl hd
  have hinodes : ∀ j x, ({ s with cache := cache }.setCi k ci').inodes j = some x →
      (∃ y, s.inodes j = some y) ∧ (j = k ∧ x = ci' ∨ j ≠ k ∧ s.inodes j = some x) := by
    intro j x hx
    by_cases hjk : j = k
    · subst hjk
      rw [MkSfs.setCi_inodes_self] at hx
      exact ⟨⟨ci, hk⟩, Or.inl ⟨rfl, (Option.some.inj hx).symm⟩⟩
    · rw [MkSfs.setCi_inodes_of_ne _ hjk] at hx
      exact ⟨⟨x, hx⟩, Or.inr ⟨hjk, hx⟩⟩
  have hinodes' : ∀ j, s.inodes j = none →
      ({ s with cache := cache }.setCi k ci').inodes j = none := by
    intro j hj
    by_contra hne
    obtain ⟨x, hx⟩ := Option.ne_none_iff_exists'.mp hne
    obtain ⟨⟨y, hy⟩, -⟩ := hinodes j x hx
    rw [hj] at hy
    cases hy
  exact {
    ninos_le := h.ninos_le
    blocks := h.blocks
    first_le := h.first_le
    next_le := h.next_le
    unused := h.unused
    inode_lt := fun j x hx ↦ by
      obtain ⟨⟨y, hy⟩, -⟩ := hinodes j x hx
      exact h.inode_lt j y hy
    cache_lt := fun c x hx ↦ by
      obtain ⟨y, hy⟩ := (hsome c).mp ⟨x, hx⟩
      exact h.cache_lt c y hy
    data_lt := fun j d hd ↦ by
      rcases hstored j d hd with hold | ⟨rfl, -⟩
      · exact h.data_lt j d hold
      · exact ⟨hb.first_le, hb.lt⟩
    cache_inode := fun c x hx ↦ by
      obtain ⟨y, hy⟩ := (hsome c).mp ⟨x, hx⟩
      exact hinodes' c (h.cache_inode c y hy)
    data_free := fun j d hd ↦ by
      rcases hstored j d hd with hold | ⟨rfl, -⟩
      · exact ⟨hnone d (h.data_free j d hold).1, hinodes' d (h.data_free j d hold).2⟩
      · exact ⟨hnone d hb.cache, hinodes' d hb.inodes⟩
    stored_nil := fun j hj ↦ by
      have hjk : j ≠ k := by
        rintro rfl
        rw [MkSfs.setCi_inodes_self] at hj
        cases hj
      rw [MkSfs.setCi_inodes_of_ne _ hjk] at hj
      rw [L.append_stored_of_ne hjk, h.stored_nil j hj]
    cacheTable := fun c ↦ (hsome c).trans (h.cacheTable c)
    inodeTable := fun j ↦ by
      refine Iff.trans ⟨?_, ?_⟩ (h.inodeTable j)
      · rintro ⟨x, hx⟩
        exact (hinodes j x hx).1
      · rintro ⟨y, hy⟩
        by_contra hno
        rw [not_exists] at hno
        have : j ≠ k := by
          rintro rfl
          exact hno ci' (MkSfs.setCi_inodes_self _ _ _)
        exact hno y ((MkSfs.setCi_inodes_of_ne _ this _).trans hy)
    ino := fun j x hx ↦ by
      rcases (hinodes j x hx).2 with ⟨rfl, rfl⟩ | ⟨-, hold⟩
      · exact hino
      · exact h.ino j x hold
    layout := fun j x hx ↦ by
      rcases (hinodes j x hx).2 with ⟨rfl, rfl⟩ | ⟨hjk, hold⟩
      · rw [L.append_stored_self]
        exact hlay
      · rw [L.append_stored_of_ne hjk]
        exact (h.layout j x hold).congr fun c y hc ho ↦
          ⟨hothers c y hc (ho.trans_ne hjk), ho⟩ }

/-- What appending a block to `k` did to the rest of the state. -/
structure MkAppended (s s' : MkSfs) (k : ℕ) (ci : CacheInode) : Prop where
  frame : MkFrame s s' 2
  inode : ∃ ci', s'.inodes k = some ci' ∧ ci'.inode.type = ci.inode.type ∧
    ci'.inode.nlinks = ci.inode.nlinks
  others : ∀ j ≠ k, s'.inodes j = s.inodes j

theorem MkFrame.mono {s t u : MkSfs} {d e : ℕ} (h : MkFrame s t d) (hninos : u.ninos = t.ninos)
    (hinfo : u.info = t.info) (himg : u.img = t.img) (hentry : u.entry = t.entry)
    (hnext : u.nextIno = t.nextIno) (hde : d ≤ e) : MkFrame s u e where
  ninos := hninos.trans h.ninos
  info := hinfo.trans h.info
  img := himg.trans h.img
  entry := hentry.trans h.entry
  le_next := h.le_next.trans hnext.ge
  next_le := hnext.le.trans (h.next_le.trans (Nat.add_le_add_left hde _))

theorem MkOk.cache_ne_zero (h : MkOk s L owner) {c : ℕ} {x : Bytes} (hc : s.cache c = some x) :
    c ≠ 0 := by
  have := two_le_firstIno s.ninos
  have := (h.cache_lt c x hc).1
  omega

theorem MkOk.next_lt (h : MkOk s L owner) : s.nextIno < 2 ^ 32 := by
  have := h.next_le
  have := h.ninos_le
  omega

theorem ne_of_owner {c d : ℕ} (hc : owner c = k) (hd : owner d ≠ k) : d ≠ c := by
  rintro rfl
  exact hd hc

/-- Changing what is in a cache block leaves the cache blocks there are. -/
theorem cached_setCache {c : ℕ} {x : Bytes} (hc : s.cache c = some x) (y : Bytes) (d : ℕ) :
    (∃ z, (s.setCache c y).cache d = some z) ↔ ∃ z, s.cache d = some z := by
  by_cases hdc : d = c
  · subst hdc
    exact ⟨fun _ ↦ ⟨x, hc⟩, fun _ ↦ ⟨y, s.setCache_cache_self d y⟩⟩
  · rw [s.setCache_cache_of_ne hdc]

theorem appendBlock_direct (h : MkOk s L owner) (hk : s.inodes k = some ci) (hb : Fresh s L b)
    {size : ℕ} (hsize : size ≤ sfsBlksize) (h12 : ci.nblks < 12) :
    ∃ s' owner', (appendBlock k size b).run s = .ok () s' ∧ MkOk s' (L.append k b) owner' ∧
      MkAppended s s' k ci := by
  have hlay := (h.layout k ci hk).append_direct h12 b size
  refine ⟨_, owner, ?_, h.append hk hb (fun _ ↦ Iff.rfl) (fun _ _ hc _ ↦ hc) hlay (h.ino k ci hk),
    ⟨⟨rfl, rfl, rfl, rfl, le_refl _, Nat.le_add_right ..⟩,
      ⟨_, MkSfs.setCi_inodes_self .., rfl, rfl⟩, fun j hj ↦ MkSfs.setCi_inodes_of_ne _ hj _⟩⟩
  rw [appendBlock, assert_bind_run hsize, bind_of_ok (getCi_eq hk),
    if_neg (by rw [sfsLnNblks_eq]; omega), dif_pos h12, putCi_eq]

/-- The words of the entry block that appending uses. -/
theorem MkOk.slots_read {s' : MkSfs} {owner' : ℕ → ℕ} (h : MkOk s' L owner')
    (hk : s'.inodes k = some ci) {c : ℕ} {buf : Bytes} (hbuf : s'.cache c = some buf)
    (hc : ci.inode.indirect ≠ 0 → c = ci.inode.indirect) (hlt : (L.stored k).length < 1036) :
    ∀ i n, (L.stored k)[i]? = some n → 12 ≤ i → read32 buf (4 * (i - 12)) = n := by
  intro i n hn hi
  obtain ⟨hlen, -⟩ := List.getElem?_eq_some_iff.mp hn
  obtain ⟨x, hx, -, hread⟩ := (h.layout k ci hk).slots (by omega)
  have hceq := hc (h.cache_ne_zero hx)
  rw [← hceq, hbuf] at hx
  rw [Option.some.inj hx]
  exact hread i n hn hi (by omega)

theorem appendBlock_slot (h : MkOk s L owner) (hk : s.inodes k = some ci) (hb : Fresh s L b)
    {size : ℕ} (hsize : size ≤ sfsBlksize) (h12 : 12 ≤ ci.nblks) (h1036 : ci.nblks < 1036) :
    (∃ s' owner', (appendBlock k size b).run s = .ok () s' ∧ MkOk s' (L.append k b) owner' ∧
      MkAppended s s' k ci) ∨
    ∃ s', (appendBlock k size b).run s = .error .outOfDiskSpace s' ∧ s.ninos ≤ s.nextIno + 1 := by
  have hlay := h.layout k ci hk
  have hlen := hlay.nblks
  have hrun : (appendBlock k size b).run s = (updateCache ci.l1 ci.inode.indirect >>= fun l1 ↦ do
      storeWord l1 (ci.nblks - sfsNdirect) b
      putCi k (CacheInode.count { ci with
        inode := { ci.inode with indirect := l1 }, l1 := some l1 } size)).run s := by
    rw [appendBlock, assert_bind_run hsize, bind_of_ok (getCi_eq hk),
      if_neg (by rw [sfsLnNblks_eq]; omega), dif_neg (by omega),
      if_pos (by rw [sfsL1Nblks_eq]; exact h1036)]
  have hn : ci.inode.indirect ≠ 0 → ci.l1 = some ci.inode.indirect ∧
      owner ci.inode.indirect = k ∧ ∃ x, s.cache ci.inode.indirect = some x := by
    intro hne
    have hlong : 12 < (L.stored k).length := by
      by_contra hshort
      exact hne (hlay.noIndirect (by omega))
    obtain ⟨x, hx, ho, -⟩ := hlay.slots hlong
    exact ⟨hlay.l1 hlong (by omega), ho, x, hx⟩
  rw [hrun]
  rcases updateCache_cases h k hn with ⟨c, s₁, owner₁, hupd, hp⟩ | ⟨hfull, hroom⟩
  · obtain ⟨buf, hbuf, -⟩ := hp.cached
    have hk₁ : s₁.inodes k = some ci := by rw [hp.inodes, hk]
    have hread := hp.ok.slots_read hk₁ hbuf hp.eq_of_ne (by omega)
    have hb₁ := hp.fresh b hb
    have hlay₁ := (hp.ok.layout k ci hk₁).append_slot (by omega) (by omega) hp.owned hread
      (hb₁.lt.trans hp.ok.next_lt) size
    refine Or.inl ⟨_, owner₁, ?_, hp.ok.append hk₁ hb₁ (cached_setCache hbuf _)
      (fun d x hd ho ↦ (s₁.setCache_cache_of_ne (ne_of_owner hp.owned ho) _).trans hd)
      hlay₁ (h.ino k ci hk), ?_⟩
    · rw [bind_of_ok hupd, bind_of_ok (storeWord_eq hbuf _ _), putCi_eq]
      rfl
    · refine ⟨hp.frame.mono rfl rfl rfl rfl rfl (by omega),
        ⟨_, MkSfs.setCi_inodes_self .., rfl, rfl⟩, fun j hj ↦ ?_⟩
      · rw [MkSfs.setCi_inodes_of_ne _ hj]
        exact congrFun hp.inodes j
  · exact Or.inr ⟨s, bind_of_error hfull _, hroom.trans (Nat.le_succ _)⟩

/-- The words of the doubly indirect block `d` that appending uses: what lies behind is empty, and
the entry block that is named is at hand. -/
theorem Layout.db_word {cache : ℕ → Option Bytes} {bs : List ℕ} {d : ℕ} {buf : Bytes}
    (h : Layout cache owner k ci bs) (h1036 : 1036 ≤ bs.length) (hbuf : cache d = some buf)
    (hd : ci.inode.dbIndirect ≠ 0 → d = ci.inode.dbIndirect)
    (hnew : ci.inode.dbIndirect = 0 → buf = zero) {q : ℕ}
    (hq : q = (bs.length - 1036) / 1024) :
    (∀ j, q < j → read32 buf (4 * j) = 0) ∧ (read32 buf (4 * q) ≠ 0 →
      ci.l1 = some (read32 buf (4 * q)) ∧ owner (read32 buf (4 * q)) = k ∧
        (∃ x, cache (read32 buf (4 * q)) = some x) ∧ read32 buf (4 * q) ≠ d ∧
        read32 buf (4 * q) ≠ ci.inode.indirect) := by
  subst hq
  by_cases hzero : ci.inode.dbIndirect = 0
  · rw [hnew hzero]
    exact ⟨fun _ _ ↦ read32_zero _, fun hne ↦ absurd (read32_zero _) hne⟩
  · have hlong : 1036 < bs.length := by
      by_contra hshort
      exact hzero (h.noDb (by omega))
    have hdeq := hd hzero
    obtain ⟨x, w, -, hl1, hx, hcw, -, how, -, hwi, hwd, hword, hrest⟩ := h.db hlong
    rw [← hdeq] at hx hwd
    rw [hbuf] at hx
    obtain rfl := Option.some.inj hx
    have hle : (bs.length - 1037) / 1024 ≤ (bs.length - 1036) / 1024 :=
      Nat.div_le_div_right (Nat.sub_le_sub_left (Nat.le_succ _) _)
    refine ⟨fun j hj ↦ hrest j (hle.trans_lt hj), fun hne ↦ ?_⟩
    rcases hle.eq_or_lt' with hsame | hlater
    · rw [hsame, hword]
      exact ⟨hl1, how, hcw, hwd, hwi⟩
    · exact absurd (hrest _ hlater) hne

theorem appendBlock_db (h : MkOk s L owner) (hk : s.inodes k = some ci) (hb : Fresh s L b)
    {size : ℕ} (hsize : size ≤ sfsBlksize) (h1036 : 1036 ≤ ci.nblks) (hlt : ci.nblks < 32768) :
    (∃ s' owner', (appendBlock k size b).run s = .ok () s' ∧ MkOk s' (L.append k b) owner' ∧
      MkAppended s s' k ci) ∨
    ∃ s', (appendBlock k size b).run s = .error .outOfDiskSpace s' ∧ s.ninos ≤ s.nextIno + 1 := by
  have hlay := h.layout k ci hk
  have hlen := hlay.nblks
  obtain ⟨q, hq⟩ : ∃ q, q = (ci.nblks - 1036) / 1024 := ⟨_, rfl⟩
  have hrun : (appendBlock k size b).run s
      = (updateCache ci.l2 ci.inode.dbIndirect >>= fun l2 ↦ do
          let word ← loadWord l2 q
          let l1 ← updateCache ci.l1 word
          storeWord l2 q l1
          storeWord l1 ((ci.nblks - 1036) % 1024) b
          putCi k (CacheInode.count { ci with
            inode := { ci.inode with dbIndirect := l2 }, l1 := some l1, l2 := some l2 } size)).run
              s := by
    rw [appendBlock, assert_bind_run hsize, bind_of_ok (getCi_eq hk),
      if_neg (by rw [sfsLnNblks_eq]; omega), dif_neg (by omega),
      if_neg (by rw [sfsL1Nblks_eq]; omega), if_pos (by rw [sfsL2Nblks_eq]; omega),
      sfsL1Nblks_eq, sfsBlkNentry_eq, ← hq]
  obtain ⟨xi, hxi, hoi, -⟩ := hlay.slots (by omega)
  have hn : ci.inode.dbIndirect ≠ 0 → ci.l2 = some ci.inode.dbIndirect ∧
      owner ci.inode.dbIndirect = k ∧ ∃ x, s.cache ci.inode.dbIndirect = some x := by
    intro hne
    obtain ⟨x, w, hl2, -, hx, -, ho, -⟩ := hlay.db (by
      by_contra hshort
      exact hne (hlay.noDb (by omega)))
    exact ⟨hl2, ho, x, hx⟩
  rw [hrun]
  -- the block of the first level may have to be made, and then that of the second
  rcases updateCache_cases h k hn with ⟨d, s₁, owner₁, hupd, hp⟩ | ⟨hfull, hroom⟩
  swap
  · exact Or.inr ⟨s, bind_of_error hfull _, hroom.trans (Nat.le_succ _)⟩
  obtain ⟨buf, hbuf, hzero⟩ := hp.cached
  have hxi₁ := (hp.old _ xi hxi).1
  have hk₁ : s₁.inodes k = some ci := by rw [hp.inodes, hk]
  obtain ⟨hrest, hword⟩ := (hp.ok.layout k ci hk₁).db_word (by omega) hbuf hp.eq_of_ne hzero
    (hq.trans (by rw [hlen]))
  have hdi : d ≠ ci.inode.indirect := by
    by_cases hne : ci.inode.dbIndirect = 0
    · rintro rfl
      rw [hp.new hne] at hxi
      cases hxi
    · rw [hp.eq_of_ne hne]
      obtain ⟨x, w, -, -, -, -, -, -, hdi, -⟩ := hlay.db (by
        by_contra hshort
        exact hne (hlay.noDb (by omega)))
      exact hdi
  rw [bind_of_ok hupd, bind_of_ok (loadWord_eq hbuf q)]
  have hn' : read32 buf (4 * q) ≠ 0 → ci.l1 = some (read32 buf (4 * q)) ∧
      owner₁ (read32 buf (4 * q)) = k ∧ ∃ x, s₁.cache (read32 buf (4 * q)) = some x :=
    fun hne ↦ ⟨(hword hne).1, (hword hne).2.1, (hword hne).2.2.1⟩
  rcases updateCache_cases hp.ok k hn' with ⟨w, s₂, owner₂, hupd', hp'⟩ | ⟨hfull, hroom⟩
  swap
  · refine Or.inr ⟨s₁, bind_of_error hfull _, ?_⟩
    have := hp.frame.ninos
    have := hp.frame.next_le
    omega
  obtain ⟨buf', hbuf', -⟩ := hp'.cached
  obtain ⟨hbuf₂, hod⟩ := hp'.old d buf hbuf
  have hk₂ : s₂.inodes k = some ci := by rw [hp'.inodes, hk₁]
  have hb₂ := hp'.fresh b (hp.fresh b hb)
  have hwd : w ≠ d := by
    by_cases hne : read32 buf (4 * q) = 0
    · rintro rfl
      rw [hp'.new hne] at hbuf
      cases hbuf
    · rw [hp'.eq_of_ne hne]
      exact (hword hne).2.2.2.1
  have hwi : w ≠ ci.inode.indirect := by
    by_cases hne : read32 buf (4 * q) = 0
    · rintro rfl
      rw [hp'.new hne] at hxi₁
      cases hxi₁
    · rw [hp'.eq_of_ne hne]
      exact (hword hne).2.2.2.2
  have hw32 : w < 2 ^ 32 := (hp'.ok.cache_lt w buf' hbuf').2.trans hp'.ok.next_lt
  have hlay₂ := (hp'.ok.layout k ci hk₂).append_db (by omega) (by omega) (hod.trans hp.owned)
    hp'.owned hwd hdi hwi hw32 (by rw [← hlen, ← hq]; exact hrest) buf' b size
  rw [← hq] at hlay₂
  have hbuf₃ : (s₂.setCache d (memcpy buf (4 * q) (le w) 0 4)).cache w = some buf' := by
    rw [s₂.setCache_cache_of_ne hwd, hbuf']
  refine Or.inl ⟨_, owner₂, ?_, hp'.ok.append hk₂ hb₂
    (fun c ↦ (cached_setCache hbuf₃ _ c).trans (cached_setCache hbuf₂ _ c)) (fun c x hc ho ↦ ?_)
    hlay₂ (h.ino k ci hk), ?_⟩
  · rw [bind_of_ok hupd', bind_of_ok (storeWord_eq hbuf₂ _ _), bind_of_ok (storeWord_eq hbuf₃ _ _),
      putCi_eq]
    rfl
  · have hcw : c ≠ w := ne_of_owner hp'.owned ho
    have hcd : c ≠ d := ne_of_owner (hod.trans hp.owned) ho
    exact (MkSfs.setCache_cache_of_ne _ hcw _).trans ((s₂.setCache_cache_of_ne hcd _).trans hc)
  · refine ⟨(hp.frame.trans hp'.frame).mono rfl rfl rfl rfl rfl (le_refl _),
      ⟨_, MkSfs.setCi_inodes_self .., rfl, rfl⟩, fun j hj ↦ ?_⟩
    rw [MkSfs.setCi_inodes_of_ne _ hj]
    exact (congrFun hp'.inodes j).trans (congrFun hp.inodes j)

/-- `append_block` appends, unless the file or the image is full. -/
theorem appendBlock_cases (h : MkOk s L owner) (hk : s.inodes k = some ci) (hb : Fresh s L b)
    {size : ℕ} (hsize : size ≤ sfsBlksize) :
    (∃ s' owner', (appendBlock k size b).run s = .ok () s' ∧ MkOk s' (L.append k b) owner' ∧
      MkAppended s s' k ci) ∨
    (∃ s', (appendBlock k size b).run s = .error .outOfDiskSpace s' ∧ s.ninos ≤ s.nextIno + 1) ∨
    (appendBlock k size b).run s = .error .fileTooBig s ∧ 32768 ≤ (L.stored k).length := by
  have hlen := (h.layout k ci hk).nblks
  by_cases hbig : 32768 ≤ ci.nblks
  · refine Or.inr (Or.inr ⟨?_, hlen ▸ hbig⟩)
    rw [appendBlock, assert_bind_run hsize, bind_of_ok (getCi_eq hk), sfsLnNblks_eq, if_pos hbig,
      run_fail]
  · by_cases h12 : ci.nblks < 12
    · exact Or.inl (appendBlock_direct h hk hb hsize h12)
    · by_cases h1036 : ci.nblks < 1036
      · exact (appendBlock_slot h hk hb hsize (not_lt.mp h12) h1036).imp id Or.inl
      · exact (appendBlock_db h hk hb hsize (not_lt.mp h1036) (not_le.mp hbig)).imp id Or.inl

end Put

end Ucore
