import Ucore.Mksfs.Append
import Ucore.Mksfs.CacheChains

/-!
# Pointers and numbers

A cache block of `tools/mksfs.c` is known by a pointer to it in `CacheChains`, and by the number of
the block it will be written to in the model that images are built with (`Image`). The second says
less: two blocks with one number would be one. Here the two models are shown to be the same program.

`Names K s m` says that the caches `s` are those of `m` with every pointer replaced by a number,
the words of a block by the bytes of it, and that the files of `K` are there. For that the numbers
of the blocks have to differ, and they do because each is taken from `next_ino`. Each routine is
compared with its twin by the way the two end (`Outcome.Like`): `update_cache` leaves a block on the
one side and its number on the other (`Updated`), `append_block` leaves caches that are related
again, and so does a run of calls (`runCalls_like`). An image is related to the caches at the start
when `create_sfs` has made it (`names_start`).
-/

namespace Ucore.CacheChains

open Bytes Prog

/-- The number of the block behind a pointer. -/
def Caches.inoAt (s : Caches) (p : ℕ) : ℕ := (s.block p).ino

/-- A cache inode whose pointers to cache blocks are numbers. -/
structure File.Named (s : Caches) (f : File) (ci : CacheInode) : Prop where
  size : ci.inode.size = f.size
  blocks : ci.inode.blocks = f.blocks
  direct : ∀ i : Fin 12, ci.inode.direct i = f.direct i
  indirect : ci.inode.indirect = f.indirect
  dbIndirect : ci.inode.dbIndirect = f.dbIndirect
  nblks : ci.nblks = f.nblks
  l1 : ci.l1 = f.l1.map s.inoAt
  l2 : ci.l2 = f.l2.map s.inoAt
  l1_lt : ∀ p, f.l1 = some p → p < s.used
  l2_lt : ∀ p, f.l2 = some p → p < s.used

/-- The caches with numbers for pointers; the files in `K` are there. -/
structure Names (K : Set ℕ) (s : Caches) (m : MkSfs) : Prop where
  unusedBlocks : m.unusedBlocks = s.unusedBlocks
  ninos : m.ninos = s.ninos
  nextIno : m.nextIno = s.nextIno
  ninos_lt : s.ninos < 2 ^ 32
  next_le : s.nextIno ≤ s.ninos
  /-- The numbers are taken from `next_ino`, one for each block. -/
  taken : ∀ p < s.used, s.inoAt p < s.nextIno
  inj : ∀ p < s.used, ∀ q < s.used, s.inoAt p = s.inoAt q → p = q
  word_lt : ∀ p < s.used, ∀ j, (s.block p).word j < 2 ^ 32
  cache : ∀ p < s.used, ∃ b, m.cache (s.inoAt p) = some b ∧
    ∀ j < 1024, read32 b (4 * j) = (s.block p).word j
  chains : ∀ h, m.cacheTable h = (s.chains h).map s.inoAt
  chainsLt : s.ChainsLt
  file : ∀ k ci, m.inodes k = some ci → (s.files k).Named s ci
  there : ∀ k ∈ K, ∃ ci, m.inodes k = some ci

/-- The blocks that are there keep their numbers. -/
structure Grown (s s' : Caches) : Prop where
  used : s.used ≤ s'.used
  ino : ∀ p < s.used, s'.inoAt p = s.inoAt p

section Steps

variable {K : Set ℕ} {s s' : Caches} {m : MkSfs} {f : File} {ci : CacheInode} {k p j n : ℕ}

theorem Grown.refl (s : Caches) : Grown s s := ⟨le_rfl, fun _ _ ↦ rfl⟩

theorem Grown.trans {s'' : Caches} (h : Grown s s') (h' : Grown s' s'') : Grown s s'' :=
  ⟨h.used.trans h'.used, fun p hp ↦ (h'.ino p (hp.trans_le h.used)).trans (h.ino p hp)⟩

theorem File.Named.grown (h : f.Named s ci) (hg : Grown s s') : f.Named s' ci :=
  { h with
    l1 := h.l1.trans (Option.map_congr fun p hp ↦ (hg.ino p (h.l1_lt p hp)).symm)
    l2 := h.l2.trans (Option.map_congr fun p hp ↦ (hg.ino p (h.l2_lt p hp)).symm)
    l1_lt := fun p hp ↦ (h.l1_lt p hp).trans_le hg.used
    l2_lt := fun p hp ↦ (h.l2_lt p hp).trans_le hg.used }

theorem File.Named.count (h : f.Named s ci) (size : ℕ) : (f.count size).Named s (ci.count size) :=
  { h with
    size := by rw [CacheInode.count, File.count, h.size]
    blocks := by rw [CacheInode.count, File.count, h.blocks]
    nblks := by rw [CacheInode.count, File.count, h.nblks] }

theorem Names.takeIno (h : Names K s m) (hroom : s.nextIno < s.ninos) : Names K s.takeIno m.take :=
  { h with
    next_le := hroom
    unusedBlocks := congrArg (· - 1) h.unusedBlocks
    nextIno := congrArg (· + 1) h.nextIno
    taken := fun p hp ↦ (h.taken p hp).trans (Nat.lt_succ_self _)
    file := fun k ci hk ↦ (h.file k ci hk).grown ⟨le_rfl, fun _ _ ↦ rfl⟩ }

theorem inoAt_addBlock_of_lt (n : ℕ) (hp : p < s.used) : (s.addBlock n 0).inoAt p = s.inoAt p := by
  rw [Caches.inoAt, s.addBlock_block_of_ne n 0 hp.ne, Caches.inoAt]

theorem grown_addBlock (s : Caches) (n : ℕ) : Grown s (s.addBlock n 0) :=
  ⟨Nat.le_succ _, fun _ hp ↦ inoAt_addBlock_of_lt n hp⟩

/-- A block with a new number. -/
theorem Names.addBlock (h : Names K s m) (hn : n < s.nextIno) (hnew : ∀ p < s.used, s.inoAt p ≠ n) :
    Names K (s.addBlock n 0) (m.addCache n) := by
  have hself : (s.addBlock n 0).inoAt s.used = n := by
    rw [Caches.inoAt, s.addBlock_block_self]
  -- the blocks that were there keep their numbers, so only the new one has to be looked at
  have hold : ∀ {p}, p < s.used → (s.addBlock n 0).inoAt p = s.inoAt p :=
    fun hp ↦ inoAt_addBlock_of_lt n hp
  have hcases : ∀ {p}, p < (s.addBlock n 0).used → p < s.used ∨ p = s.used :=
    fun hp ↦ Nat.lt_succ_iff_lt_or_eq.mp hp
  have hmap : ∀ i, (s.chains i).map (s.addBlock n 0).inoAt = (s.chains i).map s.inoAt :=
    fun i ↦ List.map_congr_left fun p hp ↦ hold (h.chainsLt i p hp)
  refine { h with
    taken := fun p hp ↦ ?_
    inj := fun p hp q hq heq ↦ ?_
    word_lt := fun p hp j ↦ ?_
    cache := fun p hp ↦ ?_
    chains := fun i ↦ ?_
    chainsLt := h.chainsLt.addBlock n 0
    file := fun k ci hk ↦ (h.file k ci hk).grown (grown_addBlock s n) }
  · rcases hcases hp with hp | rfl
    · rw [hold hp]
      exact h.taken p hp
    · rw [hself]
      exact hn
  · rcases hcases hp with hp | rfl
    · rcases hcases hq with hq | rfl
      · rw [hold hp, hold hq] at heq
        exact h.inj p hp q hq heq
      · rw [hold hp, hself] at heq
        exact absurd heq (hnew p hp)
    · rcases hcases hq with hq | rfl
      · rw [hold hq, hself] at heq
        exact absurd heq.symm (hnew q hq)
      · rfl
  · rcases hcases hp with hp | rfl
    · rw [s.addBlock_block_of_ne n 0 hp.ne]
      exact h.word_lt p hp j
    · rw [s.addBlock_block_self]
      exact Nat.two_pow_pos 32
  · rcases hcases hp with hp | rfl
    · obtain ⟨b, hb, hwords⟩ := h.cache p hp
      rw [hold hp, s.addBlock_block_of_ne n 0 hp.ne]
      exact ⟨b, (Function.update_of_ne (hnew p hp) _ _).trans hb, hwords⟩
    · rw [hself, s.addBlock_block_self]
      exact ⟨zero, Function.update_self .., fun j _ ↦ read32_zero _⟩
  · change Function.update m.cacheTable (hash32 0) _ i =
      (Function.update s.chains (hash32 0) _ i).map _
    by_cases hi : i = hash32 0
    · rw [hi, Function.update_self, Function.update_self, List.map_cons, hself, hmap, h.chains]
    · rw [Function.update_of_ne hi, Function.update_of_ne hi, hmap, h.chains]

theorem grown_setWord (s : Caches) (p j n : ℕ) : Grown s (s.setWord p j n) :=
  ⟨le_rfl, fun q _ ↦ s.setWord_ino p j n q⟩

/-- A word of a block is written. -/
theorem Names.setWord (h : Names K s m) (hp : p < s.used) {c : ℕ} (hc : s.inoAt p = c)
    (hn : n < 2 ^ 32) {b : Bytes} (hb : m.cache c = some b) :
    Names K (s.setWord p j n) (m.setCache c (memcpy b (4 * j) (le n) 0 4)) := by
  subst hc
  have hino : (s.setWord p j n).inoAt = s.inoAt := funext fun q ↦ s.setWord_ino p j n q
  refine { h with
    taken := fun q hq ↦ ?_
    inj := fun q hq r hr heq ↦ ?_
    word_lt := fun q hq i ↦ ?_
    cache := fun q hq ↦ ?_
    chains := fun i ↦ ?_
    chainsLt := h.chainsLt
    file := fun k ci hk ↦ (h.file k ci hk).grown (grown_setWord s p j n) }
  · rw [hino]
    exact h.taken q hq
  · rw [hino] at heq
    exact h.inj q hq r hr heq
  · rcases eq_or_ne q p with rfl | hne
    · rw [s.setWord_word_self]
      split_ifs
      · exact hn
      · exact h.word_lt q hq i
    · rw [s.setWord_block_of_ne j n hne]
      exact h.word_lt q hq i
  · rw [hino]
    rcases eq_or_ne q p with rfl | hne
    · obtain ⟨b', hb', hwords⟩ := h.cache q hq
      obtain rfl := Option.some.inj (hb.symm.trans hb')
      refine ⟨_, Function.update_self .., fun i hi ↦ ?_⟩
      rw [s.setWord_word_self]
      by_cases hij : i = j
      · rw [if_pos hij, hij, read32_memcpy_le _ _ hn]
      · rw [if_neg hij, read32_memcpy_of_ne _ _ _ (Ne.symm hij), hwords i hi]
    · -- another block has another number, and its bytes are not written
      obtain ⟨b', hb', hwords⟩ := h.cache q hq
      have hdiff : s.inoAt q ≠ s.inoAt p := fun heq ↦ hne (h.inj q hq p hp heq)
      rw [s.setWord_block_of_ne j n hne]
      exact ⟨b', (Function.update_of_ne hdiff _ _).trans hb', hwords⟩
  · rw [hino]
    exact h.chains i

/-- A cache inode is written. -/
theorem Names.setFile (h : Names K s m) (hf : f.Named s ci) :
    Names K (s.setFile k f) (m.setCi k ci) := by
  refine { h with
    file := fun i ci' hi ↦ ?_
    there := fun i hi ↦ ?_ }
  swap
  · rcases eq_or_ne i k with rfl | hne
    · exact ⟨ci, m.setCi_inodes_self i ci⟩
    · rw [m.setCi_inodes_of_ne hne]
      exact h.there i hi
  rcases eq_or_ne i k with rfl | hne
  · obtain rfl := Option.some.inj ((m.setCi_inodes_self i ci).symm.trans hi)
    change (Function.update s.files i f i).Named _ _
    rw [Function.update_self]
    exact { hf with l1 := hf.l1, l2 := hf.l2 }
  · change (Function.update s.files k f i).Named _ _
    rw [Function.update_of_ne hne]
    have hfile := h.file i ci' ((m.setCi_inodes_of_ne hne ci).symm.trans hi)
    exact { hfile with l1 := hfile.l1, l2 := hfile.l2 }

/-! ## The calls -/

/-- `sfs_alloc_ino` on both. -/
theorem sfsAllocIno_like (h : Names K s m) : (sfsAllocIno.run s).Like (Ucore.sfsAllocIno.run m)
    (fun n s' n' m' ↦ n = s.nextIno ∧ n' = n ∧ s' = s.takeIno ∧ Names K s' m') (Names K) := by
  have hiff : m.nextIno < m.ninos ↔ s.nextIno < s.ninos := by rw [h.nextIno, h.ninos]
  rw [sfsAllocIno_run]
  by_cases hroom : s.nextIno < s.ninos
  · rw [if_pos hroom, sfsAllocIno_eq (hiff.mpr hroom)]
    exact ⟨rfl, h.nextIno, rfl, h.takeIno hroom⟩
  · rw [if_neg hroom, sfsAllocIno_full fun hc ↦ hroom (hiff.mp hc)]
    exact ⟨rfl, h⟩

/-- What `search_cache_block` finds. -/
theorem Names.search (h : Names K s m) (n : ℕ) :
    Ucore.searchCacheBlock m n = (s.searchCacheBlock n).map s.inoAt := by
  rw [Ucore.searchCacheBlock, h.chains, List.find?_map]
  rfl

theorem inoAt_of_search (h : s.searchCacheBlock n = some p) : s.inoAt p = n := by
  simpa [Caches.inoAt] using List.find?_some h

/-- What `update_cache` leaves: on the one side a block and its number, on the other the number. -/
structure Updated (K : Set ℕ) (s : Caches) (r : ℕ × ℕ) (s' : Caches) (n : ℕ) (m' : MkSfs) :
    Prop where
  names : Names K s' m'
  number : r.2 = n
  ino : s'.inoAt r.1 = n
  lt : r.1 < s'.used
  grown : Grown s s'

/-- A block that is there needs no update. -/
theorem Names.updated (h : Names K s m) (hp : p < s.used) :
    Updated K s (p, s.inoAt p) s (s.inoAt p) m :=
  ⟨h, rfl, rfl, hp, Grown.refl s⟩

theorem Updated.number_lt {r : ℕ × ℕ} {m' : MkSfs} (h : Updated K s r s' n m') : n < 2 ^ 32 := by
  have htaken := h.names.taken r.1 h.lt
  have hnext := h.names.next_le
  have hninos := h.names.ninos_lt
  rw [h.ino] at htaken
  omega

/-- `alloc_cache_block` on both, where the number is chosen inside. -/
theorem allocCacheBlock_like (h : Names K s m) : ((allocCacheBlock 0).run s).Like
    ((Ucore.allocCacheBlock 0).run m) (fun p s' n m' ↦ Updated K s (p, n) s' n m') (Names K) := by
  have hzero : ¬(0 : ℕ) ≠ 0 := not_not.mpr rfl
  rw [allocCacheBlock, if_neg hzero, Ucore.allocCacheBlock, if_neg hzero]
  refine like_bind (sfsAllocIno_like h) ?_
  rintro n s' n' m' ⟨rfl, rfl, rfl, h'⟩
  rw [get_bind_run, modify_bind_run, run_pure, modify_bind_run, run_pure]
  have hnew : ∀ p < s.takeIno.used, s.takeIno.inoAt p ≠ s.nextIno := fun p hp ↦ (h.taken p hp).ne
  exact ⟨h'.addBlock (Nat.lt_succ_self _) hnew, rfl,
    congrArg CacheBlock.ino (s.takeIno.addBlock_block_self s.nextIno 0), Nat.lt_succ_self _,
    ⟨Nat.le_succ _, fun _ hp ↦ inoAt_addBlock_of_lt (s := s.takeIno) _ hp⟩⟩

/-- `update_cache` on the number zero. -/
theorem updateCache_zero_like (h : Names K s m) (cbp cbp' : Option ℕ) :
    ((updateCache cbp 0).run s).Like ((Ucore.updateCache cbp' 0).run m) (Updated K s)
      (Names K) := by
  have hpure : (Ucore.allocCacheBlock 0).run m =
      (Ucore.allocCacheBlock 0 >>= fun n ↦ pure n).run m := by
    rw [run_bind]
    cases (Ucore.allocCacheBlock 0).run m <;> rfl
  rw [updateCache, get_bind_run, if_pos rfl, Ucore.updateCache, if_pos rfl, hpure]
  refine like_bind (allocCacheBlock_like h) ?_
  rintro p s' n m' hup
  rw [get_bind_run, run_pure, run_pure]
  exact { hup with number := hup.ino }

/-- `update_cache` on both. -/
theorem updateCache_like (h : Names K s m) {cbp : Option ℕ}
    (hcbp : ∀ p, cbp = some p → p < s.used) :
    ((updateCache cbp n).run s).Like ((Ucore.updateCache (cbp.map s.inoAt) n).run m)
      (Updated K s) (Names K) := by
  by_cases hzero : n = 0
  · rw [hzero]
    exact updateCache_zero_like h cbp _
  rw [updateCache, get_bind_run, if_neg hzero, Ucore.updateCache, if_neg hzero]
  -- the pointer goes with the number, or the chain of the number is searched
  by_cases hsame : ∃ p, cbp = some p ∧ s.inoAt p = n
  · obtain ⟨p, rfl, rfl⟩ := hsame
    have hfilter : (some p).filter (fun cb ↦ decide ((s.block cb).ino = s.inoAt p)) = some p := by
      simp [Caches.inoAt]
    rw [hfilter, Option.map_some, if_neg (not_not.mpr rfl)]
    exact h.updated (hcbp p rfl)
  have hfilter : cbp.filter (fun cb ↦ decide ((s.block cb).ino = n)) = none := by
    rw [Option.filter_eq_none_iff]
    exact fun p hp hino ↦ hsame ⟨p, hp, of_decide_eq_true hino⟩
  have hdiff : cbp.map s.inoAt ≠ some n := by
    rw [Ne, Option.map_eq_some_iff]
    exact hsame
  rw [hfilter, if_pos hdiff, get_bind_run, h.search]
  cases hsearch : s.searchCacheBlock n with
  | none =>
    dsimp only
    rw [run_halt, assert_bind_run_neg (by simp)]
    trivial
  | some p =>
    have hp : p < s.used := h.chainsLt _ p (List.mem_of_find?_eq_some hsearch)
    obtain rfl := inoAt_of_search hsearch
    dsimp only
    rw [assert_bind_run (show (s.block p).ino = s.inoAt p from rfl), Option.map_some,
      assert_bind_run rfl]
    exact h.updated hp

/-- The branch of `append_block` behind the direct blocks, on both. -/
theorem appendL1_like (h : Names K s m) (hf : f.Named s ci) (size : ℕ) {ino : ℕ}
    (hino : ino < 2 ^ 32) : ((appendL1 k size ino f).run s).Like
      ((do
        let l1 ← Ucore.updateCache ci.l1 ci.inode.indirect
        storeWord l1 (ci.nblks - sfsNdirect) ino
        putCi k (CacheInode.count { ci with
          inode := { ci.inode with indirect := l1 }, l1 := some l1 } size)).run m)
      (fun _ s' _ m' ↦ Names K s' m') (Names K) := by
  rw [appendL1, hf.indirect, hf.l1, ← hf.nblks]
  refine like_bind (updateCache_like h hf.l1_lt) ?_
  rintro r s' n m' hup
  obtain ⟨b, hb, -⟩ := hup.names.cache r.1 hup.lt
  rw [hup.ino] at hb
  rw [modify_bind_run, bind_of_ok (storeWord_eq hb _ _), run_modify, putCi_eq]
  have hgrown := hup.grown.trans (grown_setWord s' r.1 (ci.nblks - sfsNdirect) ino)
  have hset : (s'.setWord r.1 (ci.nblks - sfsNdirect) ino).inoAt r.1 = n :=
    (s'.setWord_ino ..).trans hup.ino
  refine (hup.names.setWord hup.lt hup.ino hino hb).setFile (File.Named.count ?_ size)
  exact { hf.grown hgrown with
    nblks := rfl
    indirect := hup.number.symm
    l1 := congrArg some hset.symm
    l1_lt := fun p hp ↦ Option.some.inj hp ▸ hup.lt }

/-- The branch of `append_block` behind the blocks of the indirect block, on both. -/
theorem appendL2_like (h : Names K s m) (hf : f.Named s ci) (hlt : ci.nblks < sfsL2Nblks)
    (size : ℕ) {ino : ℕ} (hino : ino < 2 ^ 32) : ((appendL2 k size ino f).run s).Like
      ((do
        let l2 ← Ucore.updateCache ci.l2 ci.inode.dbIndirect
        let word ← loadWord l2 ((ci.nblks - sfsL1Nblks) / sfsBlkNentry)
        let l1 ← Ucore.updateCache ci.l1 word
        storeWord l2 ((ci.nblks - sfsL1Nblks) / sfsBlkNentry) l1
        storeWord l1 ((ci.nblks - sfsL1Nblks) % sfsBlkNentry) ino
        putCi k (CacheInode.count { ci with
          inode := { ci.inode with dbIndirect := l2 }, l1 := some l1, l2 := some l2 } size)).run m)
      (fun _ s' _ m' ↦ Names K s' m') (Names K) := by
  rw [appendL2, hf.dbIndirect, hf.l2, ← hf.nblks]
  set q := (ci.nblks - sfsL1Nblks) / sfsBlkNentry with hq
  set i := (ci.nblks - sfsL1Nblks) % sfsBlkNentry
  have hentry : q < 1024 := by
    rw [hq, sfsL1Nblks_eq, sfsBlkNentry_eq]
    rw [sfsL2Nblks_eq] at hlt
    omega
  refine like_bind (updateCache_like h hf.l2_lt) ?_
  rintro r₂ s₂ d m₂ hd
  have hf₂ := hf.grown hd.grown
  obtain ⟨b₂, hb₂, hwords⟩ := hd.names.cache r₂.1 hd.lt
  rw [hd.ino] at hb₂
  rw [get_bind_run, bind_of_ok (loadWord_eq hb₂ q), hwords q hentry, hf₂.l1]
  refine like_bind (updateCache_like hd.names hf₂.l1_lt) ?_
  rintro r₁ s₁ c m₁ hc
  -- the block of the first call is still there, and so is the new one behind the first store
  have hd₁ : s₁.inoAt r₂.1 = d := (hc.grown.ino r₂.1 hd.lt).trans hd.ino
  have hlt₁ : r₂.1 < s₁.used := hd.lt.trans_le hc.grown.used
  obtain ⟨b, hb, -⟩ := hc.names.cache r₂.1 hlt₁
  rw [hd₁] at hb
  have hset := hc.names.setWord (j := q) hlt₁ hd₁ hc.number_lt hb
  have hc' : (s₁.setWord r₂.1 q c).inoAt r₁.1 = c := (s₁.setWord_ino ..).trans hc.ino
  obtain ⟨b', hb', -⟩ := hset.cache r₁.1 hc.lt
  rw [hc'] at hb'
  rw [hc.number, modify_bind_run, bind_of_ok (storeWord_eq hb q c), modify_bind_run,
    bind_of_ok (storeWord_eq hb' i ino), run_modify, putCi_eq]
  have hgrown := (hd.grown.trans hc.grown).trans
    ((grown_setWord s₁ r₂.1 q c).trans (grown_setWord _ r₁.1 i ino))
  have hino₁ : ((s₁.setWord r₂.1 q c).setWord r₁.1 i ino).inoAt r₁.1 = c :=
    (Caches.setWord_ino ..).trans hc'
  have hino₂ : ((s₁.setWord r₂.1 q c).setWord r₁.1 i ino).inoAt r₂.1 = d :=
    (Caches.setWord_ino ..).trans ((s₁.setWord_ino ..).trans hd₁)
  refine (hset.setWord hc.lt hc' hino hb').setFile (File.Named.count ?_ size)
  exact { hf.grown hgrown with
    nblks := rfl
    dbIndirect := hd.number.symm
    l1 := congrArg some hino₁.symm
    l2 := congrArg some hino₂.symm
    l1_lt := fun p hp ↦ Option.some.inj hp ▸ hc.lt
    l2_lt := fun p hp ↦ Option.some.inj hp ▸ hlt₁ }

/-- **Pointers and numbers.** A call of `append_block` on caches with pointers ends as it does on
those with numbers, and leaves caches that are related again. -/
theorem appendBlock_like (h : Names K s m) (hk : k ∈ K) {size : ℕ} (hsize : size ≤ sfsBlksize)
    {ino : ℕ} (hino : ino < 2 ^ 32) :
    ((appendBlock k size ino).run s).Like ((Ucore.appendBlock k size ino).run m)
      (fun _ s' _ m' ↦ Names K s' m') (Names K) := by
  obtain ⟨ci, hci⟩ := h.there k hk
  have hf := h.file k ci hci
  rw [appendBlock, get_bind_run, Ucore.appendBlock, assert_bind_run hsize,
    bind_of_ok (getCi_eq hci)]
  -- one branch for each part of the block map, as in the source
  by_cases hbig : sfsLnNblks ≤ ci.nblks
  · rw [if_pos (hf.nblks ▸ hbig), if_pos hbig]
    exact ⟨rfl, h⟩
  rw [if_neg (hf.nblks ▸ hbig), if_neg hbig]
  by_cases hdirect : ci.nblks < 12
  · have hdirect' : (s.files k).nblks < sfsNdirect := hf.nblks ▸ hdirect
    rw [if_pos hdirect', dif_pos hdirect, run_modify, putCi_eq]
    refine h.setFile (File.Named.count ?_ size)
    refine { hf with direct := fun i ↦ ?_ }
    dsimp only
    simp only [Function.update_apply, hf.direct, ← hf.nblks, Fin.ext_iff]
  have hdirect' : ¬(s.files k).nblks < sfsNdirect := hf.nblks ▸ hdirect
  rw [if_neg hdirect', dif_neg hdirect]
  by_cases hl1 : ci.nblks < sfsL1Nblks
  · rw [if_pos (hf.nblks ▸ hl1), if_pos hl1]
    exact appendL1_like h hf size hino
  rw [if_neg (hf.nblks ▸ hl1), if_neg hl1]
  by_cases hl2 : ci.nblks < sfsL2Nblks
  · rw [if_pos (hf.nblks ▸ hl2), if_pos hl2]
    exact appendL2_like h hf hl2 size hino
  rw [if_neg (hf.nblks ▸ hl2), if_neg hl2, run_modify, putCi_eq]
  exact h.setFile (hf.count size)

end Steps

/-! ## Runs -/

/-- A call, on the caches with numbers. -/
def Op.imageProg : Op → Prog MkBug MkSfs Unit
  | .take => do
    let _ ← Ucore.sfsAllocIno
    return ()
  | .alloc ino => do
    let _ ← Ucore.allocCacheBlock ino
    return ()
  | .append k size ino => Ucore.appendBlock k size.1 ino

/-- A sequence of calls, on the caches with numbers. -/
def imageCalls (ops : List Op) : Prog MkBug MkSfs Unit :=
  ops.foldl (fun m op ↦ m >>= fun _ ↦ op.imageProg) (pure ())

theorem imageCalls_concat (ops : List Op) (op : Op) :
    imageCalls (ops ++ [op]) = imageCalls ops >>= fun _ ↦ op.imageProg := by
  rw [imageCalls, List.foldl_append, List.foldl_cons, List.foldl_nil, imageCalls]

/-- The calls that `mksfs` makes: a cache block gets its number from `next_ino`, and a block of data
is appended to a file that is there. -/
def Op.Made (K : Set ℕ) : Op → Prop
  | .take => True
  | .alloc ino => ino = 0
  | .append k _ ino => k ∈ K ∧ ino < 2 ^ 32

variable {K : Set ℕ} {s : Caches} {m : MkSfs}

/-- One call on both. -/
theorem Op.Made.like {op : Op} (hop : op.Made K) (h : Names K s m) :
    (op.prog.run s).Like (op.imageProg.run m) (fun _ s' _ m' ↦ Names K s' m') (Names K) := by
  cases op with
  | take =>
    refine like_bind (sfsAllocIno_like h) ?_
    rintro n s' n' m' ⟨-, -, -, h'⟩
    exact h'
  | alloc ino =>
    obtain rfl : ino = 0 := hop
    refine like_bind (allocCacheBlock_like h) ?_
    rintro p s' n m' hup
    exact hup.names
  | append k size ino => exact appendBlock_like h hop.1 (Nat.lt_succ_iff.mp size.2) hop.2

/-- **Runs with pointers and with numbers.** Any sequence of the calls that `mksfs` makes ends alike
on the two models of the caches, and leaves them related. -/
theorem runCalls_like (h : Names K s m) {ops : List Op} (hops : ∀ op ∈ ops, op.Made K) :
    ((runCalls ops).run s).Like ((imageCalls ops).run m) (fun _ s' _ m' ↦ Names K s' m')
      (Names K) := by
  induction ops using List.reverseRecOn with
  | nil => exact h
  | append_singleton ops op ih =>
    rw [runCalls_concat, imageCalls_concat]
    refine like_bind (ih fun op' hop' ↦ hops op' (List.mem_append_left _ hop')) ?_
    rintro _ s' _ m' h'
    exact (hops op (List.mem_append_right _ (List.mem_singleton_self op))).like h'

/-- The image that `create_sfs` makes is related to the caches at the start. -/
theorem names_start {imgBlocks : ℕ} {img : ℕ → Bytes} {info : Fin 32 → UInt8} {entry : Bytes}
    (h : createSfs imgBlocks img info entry = .ok m) :
    Names {sfsBlknRoot} (start m.ninos m.nextIno) m := by
  rw [createSfs] at h
  dsimp only at h
  split at h
  · cases h
  rename_i hroom
  obtain rfl := Except.ok.inj h
  have hmax : sfsMaxNblks < 2 ^ 32 := by decide
  refine
    { unusedBlocks := rfl
      ninos := rfl
      nextIno := rfl
      ninos_lt := (min_le_right _ _).trans_lt hmax
      next_le := (not_le.mp hroom).le
      taken := fun p hp ↦ absurd hp (Nat.not_lt_zero p)
      inj := fun p hp ↦ absurd hp (Nat.not_lt_zero p)
      word_lt := fun p hp ↦ absurd hp (Nat.not_lt_zero p)
      cache := fun p hp ↦ absurd hp (Nat.not_lt_zero p)
      chains := fun _ ↦ rfl
      chainsLt := fun _ p hp ↦ absurd hp List.not_mem_nil
      file := fun k ci hk ↦ ?_
      there := ?_ }
  · dsimp only at hk
    split at hk
    · obtain rfl := Option.some.inj hk
      exact ⟨rfl, rfl, fun _ ↦ rfl, rfl, rfl, rfl, rfl, rfl, nofun, nofun⟩
    · cases hk
  · rintro k rfl
    exact Option.isSome_iff_exists.mp rfl

end Ucore.CacheChains
