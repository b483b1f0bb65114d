import Ucore.Mksfs.Image

/-!
# The hash chains of the cache blocks

`alloc_cache_block`, `search_cache_block`, `update_cache` and `append_block` of `tools/mksfs.c`,
with a pointer to a cache block and the number of the block kept apart. `alloc_cache_block` files a
block under its argument, and `search_cache_block` looks under the number of the block; the two are
different when the number is chosen inside.

The main results are about any sequence of calls: the assertion of `update_cache` holds, as a file
always has the pointer it needs (`runCalls_ok`), and the search finds every block exactly when the
numbers chosen inside fall into the chain of zero (`allFound_iff_fits`).
-/

namespace Ucore.CacheChains

open Prog

/-- `struct cache_block`, without its link. The words are those of `cache`. -/
structure CacheBlock where
  ino : ℕ
  word : ℕ → ℕ

/-- Word `j` is written. -/
def CacheBlock.put (cb : CacheBlock) (j n : ℕ) : CacheBlock :=
  { cb with word := Function.update cb.word j n }

/-- `struct cache_inode`, as far as `append_block` goes. A pointer to a cache block is the number of
blocks allocated before it. -/
structure File where
  size : ℕ
  blocks : ℕ
  direct : ℕ → ℕ
  indirect : ℕ
  dbIndirect : ℕ
  nblks : ℕ
  l1 : Option ℕ
  l2 : Option ℕ

/-- `struct sfs_fs`: the cache blocks, of which there are `used`, the chains `blocks`, and the cache
inodes. -/
structure Caches where
  unusedBlocks : ℕ
  ninos : ℕ
  nextIno : ℕ
  used : ℕ
  block : ℕ → CacheBlock
  chains : ℕ → List ℕ
  files : ℕ → File

/-- A routine on the caches. -/
abbrev CacheProg (α : Type) : Type := Prog MkBug Caches α

namespace Caches

variable (s : Caches)

/-- A block with number `n`, filed under `key`. -/
def addBlock (n key : ℕ) : Caches :=
  { s with
    used := s.used + 1
    block := Function.update s.block s.used ⟨n, fun _ ↦ 0⟩
    chains := Function.update s.chains (hash32 key) (s.used :: s.chains (hash32 key)) }

/-- A number is taken. -/
def takeIno : Caches := { s with unusedBlocks := s.unusedBlocks - 1, nextIno := s.nextIno + 1 }

/-- Word `j` of a cache block is written. -/
def setWord (p j n : ℕ) : Caches :=
  { s with block := Function.update s.block p ((s.block p).put j n) }

/-- A cache inode is written. -/
def setFile (k : ℕ) (f : File) : Caches := { s with files := Function.update s.files k f }

def searchCacheBlock (ino : ℕ) : Option ℕ :=
  (s.chains (hash32 ino)).find? fun p ↦ (s.block p).ino == ino

end Caches

def sfsAllocIno : CacheProg ℕ := do
  let s ← get
  if s.nextIno < s.ninos then
    modify Caches.takeIno
    return s.nextIno
  else
    fail .outOfDiskSpace

def allocCacheBlock (ino : ℕ) : CacheProg ℕ := do
  let n ← if ino ≠ 0 then pure ino else sfsAllocIno
  let s ← get
  modify fun s ↦ s.addBlock n ino
  return s.used

/-- `update_cache`: the new values of `*cbp` and `*inop`. -/
def updateCache (cbp : Option ℕ) (inop : ℕ) : CacheProg (ℕ × ℕ) := do
  let s ← get
  if inop = 0 then
    let cb ← allocCacheBlock 0
    let s ← get
    return (cb, (s.block cb).ino)
  else
    match cbp.filter fun cb ↦ (s.block cb).ino = inop with
    | some cb => return (cb, inop)
    | none =>
      match s.searchCacheBlock inop with
      | some cb => do
        assert ((s.block cb).ino = inop)
        return (cb, inop)
      | none => halt

/-- `file->nblks ++, inode->size += size, inode->blocks ++`. -/
def File.count (f : File) (size : ℕ) : File :=
  { f with
    nblks := f.nblks + 1
    size := (f.size + size) % 2 ^ 32
    blocks := (f.blocks + 1) % 2 ^ 32 }

/-- The branch of `append_block` behind the direct blocks. -/
def appendL1 (k size ino : ℕ) (f : File) : CacheProg Unit := do
  let r ← updateCache f.l1 f.indirect
  modify fun s ↦ s.setWord r.1 (f.nblks - sfsNdirect) ino
  modify fun s ↦ s.setFile k ({ f with l1 := some r.1, indirect := r.2 }.count size)

/-- The branch of `append_block` behind the blocks of the indirect block. -/
def appendL2 (k size ino : ℕ) (f : File) : CacheProg Unit := do
  let r2 ← updateCache f.l2 f.dbIndirect
  let s ← get
  let r1 ← updateCache f.l1 ((s.block r2.1).word ((f.nblks - sfsL1Nblks) / sfsBlkNentry))
  modify fun s ↦ s.setWord r2.1 ((f.nblks - sfsL1Nblks) / sfsBlkNentry) r1.2
  modify fun s ↦ s.setWord r1.1 ((f.nblks - sfsL1Nblks) % sfsBlkNentry) ino
  modify fun s ↦ s.setFile k
    ({ f with l2 := some r2.1, dbIndirect := r2.2, l1 := some r1.1 }.count size)

/-- `append_block`, without the assertion on `size`. -/
def appendBlock (k size ino : ℕ) : CacheProg Unit := do
  let s ← get
  if sfsLnNblks ≤ (s.files k).nblks then fail .fileTooBig
  else if (s.files k).nblks < sfsNdirect then
    modify fun s ↦ s.setFile k ({ s.files k with
      direct := Function.update (s.files k).direct (s.files k).nblks ino }.count size)
  else if (s.files k).nblks < sfsL1Nblks then appendL1 k size ino (s.files k)
  else if (s.files k).nblks < sfsL2Nblks then appendL2 k size ino (s.files k)
  else modify fun s ↦ s.setFile k ((s.files k).count size)

/-- A call: a number is taken for a block of data, a cache block is allocated, or a block is
appended to a file. The size is at most that of a block, as `append_block` asserts. -/
inductive Op
  | take
  | alloc (ino : ℕ)
  | append (k : ℕ) (size : Fin (sfsBlksize + 1)) (ino : ℕ)

/-- One call. -/
def Op.prog : Op → CacheProg Unit
  | .take => do
    let _ ← sfsAllocIno
    return ()
  | .alloc ino => do
    let _ ← allocCacheBlock ino
    return ()
  | .append k size ino => appendBlock k size.1 ino

/-- A sequence of calls. -/
def runCalls (ops : List Op) : CacheProg Unit := ops.foldl (fun m op ↦ m >>= fun _ ↦ op.prog)
    (pure ())

theorem runCalls_concat (ops : List Op) (op : Op) :
    runCalls (ops ++ [op]) = runCalls ops >>= fun _ ↦ op.prog := by
  rw [runCalls, List.foldl_append, List.foldl_cons, List.foldl_nil, runCalls]

/-- An image of `ninos` blocks, on which no file has a block yet. -/
def start (ninos nextIno : ℕ) : Caches where
  unusedBlocks := ninos - nextIno
  ninos := ninos
  nextIno := nextIno
  used := 0
  block _ := ⟨0, fun _ ↦ 0⟩
  chains _ := []
  files _ := ⟨0, 0, fun _ ↦ 0, 0, 0, 0, none, none⟩

/-! ## What is found -/

namespace Caches

variable {s : Caches}

@[simp] theorem setWord_ino (s : Caches) (p j n q : ℕ) :
    ((s.setWord p j n).block q).ino = (s.block q).ino := by
  rcases eq_or_ne q p with rfl | hne
  · simp only [setWord, Function.update_self, CacheBlock.put]
  · simp only [setWord, Function.update_of_ne hne]

theorem setWord_block_of_ne (s : Caches) {p q : ℕ} (j n : ℕ) (h : q ≠ p) :
    (s.setWord p j n).block q = s.block q := Function.update_of_ne h _ _

theorem setWord_word_self (s : Caches) (p j n i : ℕ) :
    ((s.setWord p j n).block p).word i = if i = j then n else (s.block p).word i := by
  simp only [setWord, Function.update_self, CacheBlock.put, Function.update_apply]

@[simp] theorem addBlock_block_self (s : Caches) (n key : ℕ) :
    (s.addBlock n key).block s.used = ⟨n, fun _ ↦ 0⟩ := Function.update_self _ _ _

theorem addBlock_block_of_ne (s : Caches) (n key : ℕ) {q : ℕ} (h : q ≠ s.used) :
    (s.addBlock n key).block q = s.block q := Function.update_of_ne h _ _

/-- Every block is found under its number. -/
def Found (s : Caches) : Prop :=
  ∀ p < s.used, ∃ q, s.searchCacheBlock (s.block p).ino = some q ∧ (s.block q).ino = (s.block p).ino

theorem search_isSome {n : ℕ} :
    (s.searchCacheBlock n).isSome = true ↔ ∃ q ∈ s.chains (hash32 n), (s.block q).ino = n := by
  simp [searchCacheBlock]

theorem found_iff :
    s.Found ↔ ∀ p < s.used, (s.searchCacheBlock (s.block p).ino).isSome = true := by
  refine forall₂_congr fun p _ ↦ ?_
  rw [Option.isSome_iff_exists]
  refine exists_congr fun q ↦ and_iff_left_of_imp fun hq ↦ ?_
  simpa using List.find?_some hq

/-- What the search finds depends on the numbers of the blocks and on the chains. -/
theorem search_congr {s' : Caches} (hchains : s'.chains = s.chains)
    (hino : ∀ p, (s'.block p).ino = (s.block p).ino) (n : ℕ) :
    s'.searchCacheBlock n = s.searchCacheBlock n := by
  rw [searchCacheBlock, searchCacheBlock, hchains]
  simp only [hino]

theorem found_congr {s' : Caches} (hused : s'.used = s.used) (hchains : s'.chains = s.chains)
    (hino : ∀ p, (s'.block p).ino = (s.block p).ino) : s'.Found ↔ s.Found := by
  rw [found_iff, found_iff, hused]
  simp only [hino, search_congr hchains hino]

/-- The chains hold pointers to blocks. -/
def ChainsLt (s : Caches) : Prop := ∀ h, ∀ p ∈ s.chains h, p < s.used

theorem ChainsLt.addBlock (hlt : s.ChainsLt) (n key : ℕ) : (s.addBlock n key).ChainsLt := by
  intro h p hp
  change p ∈ Function.update s.chains (hash32 key) _ h at hp
  rw [Function.update_apply] at hp
  change p < s.used + 1
  split at hp
  · rcases List.mem_cons.mp hp with rfl | hp
    · exact Nat.lt_succ_self _
    · exact Nat.lt_succ_of_lt (hlt _ p hp)
  · exact Nat.lt_succ_of_lt (hlt _ p hp)

/-- A number is found behind a new block if it was found before it, or if it is that of the new
block and the block is filed where the search looks. -/
theorem search_addBlock (hlt : s.ChainsLt) (n key m : ℕ) :
    ((s.addBlock n key).searchCacheBlock m).isSome = true ↔
      (s.searchCacheBlock m).isSome = true ∨ m = n ∧ hash32 m = hash32 key := by
  rw [search_isSome, search_isSome]
  have hchains : (s.addBlock n key).chains (hash32 m) = if hash32 m = hash32 key then
      s.used :: s.chains (hash32 key) else s.chains (hash32 m) := by
    simp only [addBlock, Function.update_apply]
  have hold : ∀ q ∈ s.chains (hash32 m), (s.addBlock n key).block q = s.block q :=
    fun q hq ↦ s.addBlock_block_of_ne n key (hlt _ q hq).ne
  rw [hchains]
  constructor
  · rintro ⟨q, hq, hino⟩
    split at hq
    · rename_i hkey
      rcases List.mem_cons.mp hq with rfl | hq
      · rw [addBlock_block_self] at hino
        exact .inr ⟨hino.symm, hkey⟩
      · rw [← hkey] at hq
        exact .inl ⟨q, hq, hold q hq ▸ hino⟩
    · exact .inl ⟨q, hq, hold q hq ▸ hino⟩
  · rintro (⟨q, hq, hino⟩ | ⟨rfl, hkey⟩)
    · refine ⟨q, ?_, by rw [hold q hq, hino]⟩
      split
      · rename_i hkey
        rw [hkey] at hq
        exact List.mem_cons_of_mem _ hq
      · exact hq
    · refine ⟨s.used, ?_, by rw [addBlock_block_self]⟩
      rw [if_pos hkey]
      exact List.mem_cons_self

/-- A number can be searched for as soon as a block gets it: it is filed where the search looks, or
there is another block with that number. -/
def Fits (s : Caches) (key n : ℕ) : Prop :=
  hash32 n = hash32 key ∨ (s.searchCacheBlock n).isSome = true

instance (s : Caches) (key n : ℕ) : Decidable (s.Fits key n) := inferInstanceAs (Decidable (_ ∨ _))

theorem found_addBlock (hlt : s.ChainsLt) (hfound : s.Found) (n key : ℕ) :
    (s.addBlock n key).Found ↔ s.Fits key n := by
  rw [found_iff] at hfound ⊢
  constructor
  · intro h
    have hnew := h s.used (Nat.lt_succ_self _)
    rw [addBlock_block_self, search_addBlock hlt] at hnew
    exact hnew.symm.imp (fun hkey ↦ hkey.2) id
  · intro hfits p hp
    rcases Nat.lt_succ_iff_lt_or_eq.mp hp with hp | rfl
    · rw [s.addBlock_block_of_ne n key hp.ne, search_addBlock hlt]
      exact .inl (hfound p hp)
    · rw [addBlock_block_self, search_addBlock hlt]
      exact hfits.symm.imp id fun hkey ↦ ⟨rfl, hkey⟩

end Caches

/-! ## The pointers of a file -/

/-- The last entry block of a file, counted from the first one behind its double indirect block. -/
def lastEntry (nblks : ℕ) : ℕ := (nblks - sfsL1Nblks - 1) / sfsBlkNentry

theorem lastEntry_succ (nblks : ℕ) :
    lastEntry (nblks + 1) = (nblks - sfsL1Nblks) / sfsBlkNentry := by
  have hsub : nblks + 1 - sfsL1Nblks - 1 = nblks - sfsL1Nblks := by omega
  rw [lastEntry, hsub]

/-- A file has the numbers and pointers that go with its length. `role` tells which file a cache
block is for, and whether it is the one that is named by `db_indirect`. -/
structure FileOk (s : Caches) (role : ℕ → Option (ℕ × Bool)) (k : ℕ) (f : File) : Prop where
  indirect : f.nblks ≤ sfsNdirect → f.indirect = 0
  dbIndirect : f.nblks ≤ sfsL1Nblks → f.dbIndirect = 0
  one : sfsNdirect < f.nblks → f.nblks ≤ sfsL1Nblks →
    ∃ p < s.used, f.l1 = some p ∧ (s.block p).ino = f.indirect ∧ role p = some (k, false)
  two : sfsL1Nblks < f.nblks →
    ∃ d < s.used, f.l2 = some d ∧ (s.block d).ino = f.dbIndirect ∧ role d = some (k, true) ∧
      (∀ j, lastEntry f.nblks < j → (s.block d).word j = 0) ∧
      ∃ p < s.used, f.l1 = some p ∧ (s.block p).ino = (s.block d).word (lastEntry f.nblks) ∧
        role p = some (k, false)

/-- What holds of the caches in a run. -/
structure CacheOk (s : Caches) (role : ℕ → Option (ℕ × Bool)) : Prop where
  next : 0 < s.nextIno
  ino : ∀ p < s.used, (s.block p).ino ≠ 0
  chains : s.ChainsLt
  file : ∀ k, FileOk s role k (s.files k)

/-- The blocks there are keep their numbers and roles, and those named by a `db_indirect` of a file
other than `k` keep their words. -/
structure Keeps (s : Caches) (role : ℕ → Option (ℕ × Bool)) (k : ℕ) (s' : Caches)
    (role' : ℕ → Option (ℕ × Bool)) : Prop where
  used : s.used ≤ s'.used
  ino : ∀ p < s.used, (s'.block p).ino = (s.block p).ino
  roles : ∀ p < s.used, role' p = role p
  word : ∀ p < s.used, ∀ k', k' ≠ k → role p = some (k', true) → s'.block p = s.block p

theorem FileOk.keep {s s' : Caches} {role role' : ℕ → Option (ℕ × Bool)} {k k' : ℕ} {f : File}
    (h : FileOk s role k' f) (hkeep : Keeps s role k s' role') (hne : k' ≠ k) :
    FileOk s' role' k' f where
  indirect := h.indirect
  dbIndirect := h.dbIndirect
  one hlo hhi := by
    obtain ⟨p, hp, hl1, hino, hrole⟩ := h.one hlo hhi
    exact ⟨p, hp.trans_le hkeep.used, hl1, (hkeep.ino p hp).trans hino,
      (hkeep.roles p hp).trans hrole⟩
  two hlo := by
    obtain ⟨d, hd, hl2, hdino, hdrole, hzero, p, hp, hl1, hpino, hprole⟩ := h.two hlo
    have hsame := hkeep.word d hd k' hne hdrole
    refine ⟨d, hd.trans_le hkeep.used, hl2, (hkeep.ino d hd).trans hdino,
      (hkeep.roles d hd).trans hdrole, ?_, p, hp.trans_le hkeep.used, hl1, ?_,
      (hkeep.roles p hp).trans hprole⟩
    · rw [hsame]
      exact hzero
    · rw [hkeep.ino p hp, hpino, hsame]

/-! ## One call -/

/-- The numbers that a call takes for cache blocks, if there are that many. -/
def newBlocks (nblks : ℕ) : ℕ :=
  if sfsLnNblks ≤ nblks then 0
  else if nblks = sfsNdirect then 1
  else if nblks = sfsL1Nblks then 2
  else if sfsL1Nblks < nblks ∧ (nblks - sfsL1Nblks) % sfsBlkNentry = 0 then 1
  else 0

/-- `update_cache` on a number that is zero: a new block, if the image is not full. -/
theorem updateCache_zero (s : Caches) (cbp : Option ℕ) :
    (updateCache cbp 0).run s =
      if s.nextIno < s.ninos then .ok (s.used, s.nextIno) (s.takeIno.addBlock s.nextIno 0)
      else .error .outOfDiskSpace s := by
  have hzero : ¬(0 : ℕ) ≠ 0 := not_not.mpr rfl
  rw [updateCache, get_bind_run, if_pos rfl, allocCacheBlock, if_neg hzero]
  by_cases hroom : s.nextIno < s.ninos
  · have hino : sfsAllocIno.run s = .ok s.nextIno s.takeIno := by
      rw [sfsAllocIno, get_bind_run, if_pos hroom]
      rfl
    have halloc : (sfsAllocIno >>= fun n ↦ (do
        let s ← get
        modify fun s ↦ s.addBlock n 0
        return s.used : CacheProg ℕ)).run s = .ok s.used (s.takeIno.addBlock s.nextIno 0) := by
      rw [bind_of_ok hino]
      rfl
    rw [if_pos hroom, bind_of_ok halloc, get_bind_run, run_pure]
    have hblock := s.takeIno.addBlock_block_self s.nextIno 0
    change (s.takeIno.addBlock s.nextIno 0).block s.used = _ at hblock
    rw [hblock]
  · have hino : sfsAllocIno.run s = .error .outOfDiskSpace s := by
      rw [sfsAllocIno, get_bind_run, if_neg hroom, run_fail]
    rw [if_neg hroom]
    exact bind_of_error (bind_of_error hino _) _

/-- `update_cache` on a number that goes with the pointer: nothing is done. -/
theorem updateCache_same {s : Caches} {p : ℕ} (hp : (s.block p).ino ≠ 0) :
    (updateCache (some p) (s.block p).ino).run s = .ok (p, (s.block p).ino) s := by
  rw [updateCache, get_bind_run, if_neg hp]
  have hfilter : (some p).filter (fun cb ↦ decide ((s.block cb).ino = (s.block p).ino)) =
      some p := by
    simp
  rw [hfilter]
  rfl

section Step

variable {s : Caches} {role : ℕ → Option (ℕ × Bool)} {k size ino : ℕ}

theorem Keeps.refl (s : Caches) (role : ℕ → Option (ℕ × Bool)) (k : ℕ) : Keeps s role k s role :=
  ⟨le_rfl, fun _ _ ↦ rfl, fun _ _ ↦ rfl, fun _ _ _ _ _ ↦ rfl⟩

theorem Keeps.trans {s' s'' : Caches} {role' role'' : ℕ → Option (ℕ × Bool)}
    (h : Keeps s role k s' role') (h' : Keeps s' role' k s'' role'') :
    Keeps s role k s'' role'' where
  used := h.used.trans h'.used
  ino p hp := (h'.ino p (hp.trans_le h.used)).trans (h.ino p hp)
  roles p hp := (h'.roles p (hp.trans_le h.used)).trans (h.roles p hp)
  word p hp k' hne hrole :=
    (h'.word p (hp.trans_le h.used) k' hne ((h.roles p hp).trans hrole)).trans
      (h.word p hp k' hne hrole)

/-- A new block does not touch the others. -/
theorem keeps_addBlock (s : Caches) (role : ℕ → Option (ℕ × Bool)) (k n key : ℕ)
    (r : Option (ℕ × Bool)) :
    Keeps s role k (s.addBlock n key) (Function.update role s.used r) where
  used := Nat.le_succ _
  ino _ hp := congrArg CacheBlock.ino (s.addBlock_block_of_ne _ _ hp.ne)
  roles _ hp := Function.update_of_ne hp.ne _ _
  word _ hp _ _ _ := s.addBlock_block_of_ne _ _ hp.ne

/-- Writing a block of file `k` leaves those of the other files alone. -/
theorem keeps_setWord {p j n : ℕ} {level : Bool} (hrole : role p = some (k, level)) :
    Keeps s role k (s.setWord p j n) role where
  used := le_rfl
  ino q _ := s.setWord_ino p j n q
  roles _ _ := rfl
  word q _ k' hne hrole' := by
    refine s.setWord_block_of_ne j n ?_
    rintro rfl
    rw [hrole] at hrole'
    exact hne (Prod.mk.inj (Option.some.inj hrole')).1.symm

/-- The state in the middle of a call on file `k`, whose inode is not written yet. -/
structure Midway (s : Caches) (role : ℕ → Option (ℕ × Bool)) (k : ℕ) (s' : Caches)
    (role' : ℕ → Option (ℕ × Bool)) : Prop where
  keeps : Keeps s role k s' role'
  next : 0 < s'.nextIno
  ino : ∀ p < s'.used, (s'.block p).ino ≠ 0
  chains : s'.ChainsLt
  files : s'.files = s.files

theorem CacheOk.midway (h : CacheOk s role) (k : ℕ) : Midway s role k s role :=
  ⟨Keeps.refl s role k, h.next, h.ino, h.chains, rfl⟩

namespace Midway

variable {s' : Caches} {role' : ℕ → Option (ℕ × Bool)}

/-- A block with a number that is not zero is made. -/
theorem addBlock (h : Midway s role k s' role') {n : ℕ} (hn : n ≠ 0) (key : ℕ)
    (r : Option (ℕ × Bool)) :
    Midway s role k (s'.addBlock n key) (Function.update role' s'.used r) where
  keeps := h.keeps.trans (keeps_addBlock s' role' k n key r)
  next := h.next
  ino p hp := by
    rcases Nat.lt_succ_iff_lt_or_eq.mp hp with hp | rfl
    · rw [s'.addBlock_block_of_ne n key hp.ne]
      exact h.ino p hp
    · rw [Caches.addBlock_block_self]
      exact hn
  chains := h.chains.addBlock n key
  files := h.files

theorem takeIno (h : Midway s role k s' role') : Midway s role k s'.takeIno role' :=
  ⟨⟨h.keeps.used, h.keeps.ino, h.keeps.roles, h.keeps.word⟩, Nat.succ_pos _, h.ino, h.chains,
    h.files⟩

/-- `update_cache` makes a block. -/
theorem new (h : Midway s role k s' role') (level : Bool) :
    Midway s role k (s'.takeIno.addBlock s'.nextIno 0)
      (Function.update role' s'.used (some (k, level))) :=
  h.takeIno.addBlock h.next.ne' 0 (some (k, level))

theorem setWord (h : Midway s role k s' role') {p j n : ℕ} {level : Bool}
    (hrole : role' p = some (k, level)) : Midway s role k (s'.setWord p j n) role' where
  keeps := h.keeps.trans (keeps_setWord hrole)
  next := h.next
  ino q hq := by
    rw [Caches.setWord_ino]
    exact h.ino q hq
  chains := h.chains
  files := h.files

/-- The inode of the file is written at the end. -/
theorem setFile (h : Midway s role k s' role') (hok : CacheOk s role) {f : File}
    (hf : FileOk s' role' k f) : CacheOk (s'.setFile k f) role' where
  next := h.next
  ino := h.ino
  chains := h.chains
  file k' := by
    rcases eq_or_ne k' k with rfl | hne
    · change FileOk _ _ _ (Function.update s'.files k' f k')
      rw [Function.update_self]
      exact ⟨hf.indirect, hf.dbIndirect, hf.one, hf.two⟩
    · change FileOk _ _ _ (Function.update s'.files k f k')
      rw [Function.update_of_ne hne, h.files]
      have hold := (hok.file k').keep h.keeps hne
      exact ⟨hold.indirect, hold.dbIndirect, hold.one, hold.two⟩

end Midway

/-- The state behind `append_block` in the range of the indirect block. -/
def afterL1 (s : Caches) (k size ino : ℕ) (f : File) (p : ℕ) : Caches :=
  (s.setWord p (f.nblks - sfsNdirect) ino).setFile k
    ({ f with l1 := some p, indirect := (s.block p).ino }.count size)

/-- The state behind `append_block` in the range of the double indirect block. -/
def afterL2 (s : Caches) (k size ino : ℕ) (f : File) (d p : ℕ) : Caches :=
  ((s.setWord d ((f.nblks - sfsL1Nblks) / sfsBlkNentry) (s.block p).ino).setWord p
    ((f.nblks - sfsL1Nblks) % sfsBlkNentry) ino).setFile k
      ({ f with l2 := some d, dbIndirect := (s.block d).ino, l1 := some p }.count size)

variable {s' : Caches} {role' : ℕ → Option (ℕ × Bool)} {f : File} {d p : ℕ}

theorem found_afterL1 : (afterL1 s' k size ino f p).Found ↔ s'.Found :=
  Caches.found_congr rfl rfl fun q ↦ s'.setWord_ino p _ _ q

theorem found_afterL2 : (afterL2 s' k size ino f d p).Found ↔ s'.Found :=
  Caches.found_congr rfl rfl fun q ↦ (Caches.setWord_ino _ p _ _ q).trans (s'.setWord_ino d _ _ q)

variable (size ino) in
theorem cacheOk_afterL1 (hok : CacheOk s role) (h : Midway s role k s' role') (hp : p < s'.used)
    (hrole : role' p = some (k, false)) (hlo : sfsNdirect ≤ f.nblks) (hhi : f.nblks < sfsL1Nblks)
    (hdb : f.dbIndirect = 0) : CacheOk (afterL1 s' k size ino f p) role' := by
  refine (h.setWord hrole).setFile hok ⟨fun hle ↦ ?_, fun _ ↦ hdb, fun _ _ ↦ ?_, fun hlt ↦ ?_⟩
  · exact absurd hle (Nat.not_le_of_lt (Nat.lt_succ_of_le hlo))
  · exact ⟨p, hp, rfl, s'.setWord_ino p _ _ p, hrole⟩
  · exact absurd hlt (Nat.not_lt_of_le hhi)

variable (size ino) in
theorem cacheOk_afterL2 (hok : CacheOk s role) (h : Midway s role k s' role') (hd : d < s'.used)
    (hdrole : role' d = some (k, true)) (hp : p < s'.used) (hprole : role' p = some (k, false))
    (hlo : sfsL1Nblks ≤ f.nblks)
    (hzero : ∀ j, lastEntry (f.nblks + 1) < j → (s'.block d).word j = 0) :
    CacheOk (afterL2 s' k size ino f d p) role' := by
  have hlast := lastEntry_succ f.nblks
  have hne : d ≠ p := by
    rintro rfl
    rw [hdrole] at hprole
    cases hprole
  have hword : ∀ j,
      (((s'.setWord d ((f.nblks - sfsL1Nblks) / sfsBlkNentry) (s'.block p).ino).setWord
      p ((f.nblks - sfsL1Nblks) % sfsBlkNentry) ino).block d).word j =
      if j = lastEntry (f.nblks + 1) then (s'.block p).ino else (s'.block d).word j := by
    intro j
    rw [Caches.setWord_block_of_ne _ _ _ hne, Caches.setWord_word_self, hlast]
  have hinos : ∀ q, (((s'.setWord d ((f.nblks - sfsL1Nblks) / sfsBlkNentry)
      (s'.block p).ino).setWord p ((f.nblks - sfsL1Nblks) % sfsBlkNentry) ino).block q).ino =
      (s'.block q).ino := fun q ↦ (Caches.setWord_ino _ p _ _ q).trans (s'.setWord_ino d _ _ q)
  have hlong : sfsL1Nblks < f.nblks + 1 := Nat.lt_succ_of_le hlo
  refine ((h.setWord hdrole).setWord hprole).setFile hok
    ⟨fun hle ↦ ?_, fun hle ↦ ?_, fun _ hle ↦ ?_, fun _ ↦ ?_⟩
  · exact absurd (hle.trans (by decide)) (Nat.not_le_of_lt hlong)
  · exact absurd hle (Nat.not_le_of_lt hlong)
  · exact absurd hle (Nat.not_le_of_lt hlong)
  · refine ⟨d, hd, rfl, hinos d, hdrole, fun j hj ↦ ?_, p, hp, rfl, ?_, hprole⟩
    · have hne' : j ≠ lastEntry (f.nblks + 1) := Nat.ne_of_gt hj
      rw [hword, if_neg hne']
      exact hzero j hj
    · rw [hinos]
      exact ((hword _).trans (if_pos rfl)).symm

/-! ## What a call does to the search -/

/-- A call that takes the numbers `ns` for cache blocks: it ends well, and then the search finds all
blocks if it did and the numbers fit; or it reports that the image is full or the file too big. -/
def CallOk (s : Caches) (ns : List ℕ) (m : CacheProg Unit) : Prop :=
  (∃ s' role', m.run s = .ok () s' ∧ CacheOk s' role' ∧ (∀ n ∈ ns, n < s.ninos) ∧
    (s.Found → (s'.Found ↔ ∀ n ∈ ns, s.Fits 0 n))) ∨
  ∃ e s', m.run s = .error e s' ∧ ((∀ n ∈ ns, n < s.ninos) → ns = [])

/-- A number is not found because of a block with another one. -/
theorem fits_addBlock (hlt : s.ChainsLt) {n m : ℕ} (hne : m ≠ n) (key : ℕ) :
    (s.addBlock n key).Fits 0 m ↔ s.Fits 0 m := by
  refine or_congr_right ?_
  rw [Caches.search_addBlock hlt]
  exact or_iff_left fun h ↦ hne h.1

/-- Two blocks with different numbers, both filed under zero. -/
theorem found_addBlock_two (hlt : s.ChainsLt) (hfound : s.Found) {n m : ℕ} (hne : m ≠ n) :
    ((s.addBlock n 0).addBlock m 0).Found ↔ s.Fits 0 n ∧ s.Fits 0 m := by
  have hlt' := hlt.addBlock n 0
  by_cases hn : s.Fits 0 n
  · rw [Caches.found_addBlock hlt' ((Caches.found_addBlock hlt hfound n 0).mpr hn),
      fits_addBlock hlt hne, and_iff_right hn]
  · refine iff_of_false (fun h ↦ hn ?_) fun h ↦ hn h.1
    -- the first of the two would be found, but not because of the second one
    have hfirst := Caches.found_iff.mp h s.used (Nat.lt_succ_of_lt (Nat.lt_succ_self _))
    have hblock : (((s.addBlock n 0).addBlock m 0).block s.used).ino = n := by
      rw [Caches.addBlock_block_of_ne _ m 0 (Nat.ne_of_lt (Nat.lt_succ_self s.used)),
        Caches.addBlock_block_self]
    rw [hblock, Caches.search_addBlock hlt', Caches.search_addBlock hlt] at hfirst
    rcases hfirst with (hold | hself) | hsecond
    · exact .inr hold
    · exact .inl hself.2
    · exact absurd hsecond.1.symm hne

section Append

variable (h : CacheOk s role) (hf : s.files k = f)
include h hf

theorem appendL1_new (hlen : f.nblks = sfsNdirect) :
    CallOk s [s.nextIno] (appendL1 k size ino f) := by
  have hfile := hf ▸ h.file k
  have hzero : f.indirect = 0 := hfile.indirect hlen.le
  have hdb : f.dbIndirect = 0 := hfile.dbIndirect (hlen.le.trans (by decide))
  have hupd := updateCache_zero s f.l1
  by_cases hroom : s.nextIno < s.ninos
  · rw [if_pos hroom] at hupd
    have hself := s.takeIno.addBlock_block_self s.nextIno 0
    have hok := cacheOk_afterL1 size ino h ((h.midway k).new false) (f := f)
      (p := s.used) (Nat.lt_succ_self _) (Function.update_self _ _ _) hlen.ge
      (hlen ▸ (by decide : sfsNdirect < sfsL1Nblks)) hdb
    refine .inl ⟨_, _, ?_, hok, fun n hn ↦ List.mem_singleton.mp hn ▸ hroom, fun hfound ↦ ?_⟩
    · rw [appendL1, hzero, bind_of_ok hupd, afterL1]
      change (s.takeIno.addBlock s.nextIno 0).block s.used = _ at hself
      rw [hself]
      rfl
    · rw [found_afterL1, List.forall_mem_singleton]
      exact Caches.found_addBlock h.chains hfound s.nextIno 0
  · rw [if_neg hroom] at hupd
    refine .inr
      ⟨.outOfDiskSpace, s, ?_, fun hall ↦ absurd (hall _ (List.mem_singleton_self _)) hroom⟩
    rw [appendL1, hzero, bind_of_error hupd]

theorem appendL1_old (hlo : sfsNdirect < f.nblks) (hhi : f.nblks < sfsL1Nblks) :
    CallOk s [] (appendL1 k size ino f) := by
  have hfile := hf ▸ h.file k
  obtain ⟨p, hp, hl1, hino, hrole⟩ := hfile.one hlo hhi.le
  have hok := cacheOk_afterL1 size ino h (h.midway k) hp hrole hlo.le hhi
    (hfile.dbIndirect hhi.le)
  refine .inl ⟨_, _, ?_, hok, fun n hn ↦ absurd hn List.not_mem_nil, fun hfound ↦ ?_⟩
  · rw [appendL1, hl1, ← hino, bind_of_ok (updateCache_same (h.ino p hp))]
    rfl
  · rw [found_afterL1]
    exact iff_of_true hfound fun n hn ↦ absurd hn List.not_mem_nil

theorem appendL2_first (hlen : f.nblks = sfsL1Nblks) :
    CallOk s [s.nextIno, s.nextIno + 1] (appendL2 k size ino f) := by
  have hfile := hf ▸ h.file k
  have hzero : f.dbIndirect = 0 := hfile.dbIndirect hlen.le
  have hupd := updateCache_zero s f.l2
  by_cases hroom : s.nextIno < s.ninos
  · rw [if_pos hroom] at hupd
    have hself := s.takeIno.addBlock_block_self s.nextIno 0
    change (s.takeIno.addBlock s.nextIno 0).block s.used = _ at hself
    have hword : ((s.takeIno.addBlock s.nextIno 0).block s.used).word
        ((f.nblks - sfsL1Nblks) / sfsBlkNentry) = 0 := by rw [hself]
    have hupd' := updateCache_zero (s.takeIno.addBlock s.nextIno 0) f.l1
    change _ = if s.nextIno + 1 < s.ninos then _ else _ at hupd'
    by_cases hroom' : s.nextIno + 1 < s.ninos
    · rw [if_pos hroom'] at hupd'
      have hmid := ((h.midway k).new true).new false
      have hlt : s.used < s.used + 1 := Nat.lt_succ_self _
      have hself' := (s.takeIno.addBlock s.nextIno 0).takeIno.addBlock_block_self (s.nextIno + 1) 0
      have hkept := (s.takeIno.addBlock s.nextIno 0).takeIno.addBlock_block_of_ne (s.nextIno + 1) 0
        hlt.ne
      have hd := hkept.trans hself
      have hok := cacheOk_afterL2 size ino h hmid (f := f) (d := s.used)
        (p := s.used + 1) (Nat.lt_succ_of_lt hlt)
        ((Function.update_of_ne hlt.ne _ _).trans (Function.update_self _ _ _))
        (Nat.lt_succ_self _) (Function.update_self _ _ _) hlen.ge
        fun j _ ↦ congrArg (fun b : CacheBlock ↦ b.word j) hd
      refine .inl ⟨_, _, ?_, hok, ?_, fun hfound ↦ ?_⟩
      · rw [appendL2, hzero, bind_of_ok hupd, get_bind_run]
        simp only
        rw [hword, bind_of_ok hupd', afterL2]
        change ((s.takeIno.addBlock s.nextIno 0).takeIno.addBlock (s.nextIno + 1) 0).block
          (s.used + 1) = _ at hself'
        change ((s.takeIno.addBlock s.nextIno 0).takeIno.addBlock (s.nextIno + 1) 0).block
          s.used = _ at hd
        rw [show (s.takeIno.addBlock s.nextIno 0).nextIno = s.nextIno + 1 from rfl, hself', hd]
        rfl
      · rw [List.forall_mem_cons, List.forall_mem_singleton]
        exact ⟨hroom, hroom'⟩
      · rw [found_afterL2, List.forall_mem_cons, List.forall_mem_singleton]
        exact found_addBlock_two h.chains hfound (Nat.succ_ne_self _)
    · rw [if_neg hroom'] at hupd'
      refine .inr ⟨.outOfDiskSpace, s.takeIno.addBlock s.nextIno 0, ?_, fun hall ↦
        absurd (hall _ (List.mem_cons_of_mem _ (List.mem_singleton_self _))) hroom'⟩
      rw [appendL2, hzero, bind_of_ok hupd, get_bind_run]
      simp only
      rw [hword, bind_of_error hupd']
  · rw [if_neg hroom] at hupd
    refine .inr ⟨.outOfDiskSpace, s, ?_, fun hall ↦ absurd (hall _ List.mem_cons_self) hroom⟩
    rw [appendL2, hzero, bind_of_error hupd]

variable (size ino) in
theorem appendL2_later (hlo : sfsL1Nblks < f.nblks) :
    CallOk s (if (f.nblks - sfsL1Nblks) % sfsBlkNentry = 0 then [s.nextIno] else [])
      (appendL2 k size ino f) := by
  have hfile := hf ▸ h.file k
  obtain ⟨d, hd, hl2, hdino, hdrole, hwords, p, hp, hl1, hpino, hprole⟩ := hfile.two hlo
  have hupd : (updateCache f.l2 f.dbIndirect).run s = .ok (d, f.dbIndirect) s := by
    rw [hl2, ← hdino]
    exact updateCache_same (h.ino d hd)
  by_cases hnew : (f.nblks - sfsL1Nblks) % sfsBlkNentry = 0
  · -- the entry block is full and the next word of the double indirect block is zero
    have hnext : lastEntry f.nblks < (f.nblks - sfsL1Nblks) / sfsBlkNentry := by
      rw [lastEntry]
      rw [sfsBlkNentry_eq] at *
      omega
    have hword := hwords _ hnext
    have hupd' := updateCache_zero s f.l1
    rw [if_pos hnew]
    by_cases hroom : s.nextIno < s.ninos
    · rw [if_pos hroom] at hupd'
      have hself := s.takeIno.addBlock_block_self s.nextIno 0
      have hkept := s.takeIno.addBlock_block_of_ne s.nextIno 0 hd.ne
      have hok := cacheOk_afterL2 size ino h ((h.midway k).new false) (f := f)
        (d := d) (p := s.used) (Nat.lt_succ_of_lt hd)
        ((Function.update_of_ne hd.ne _ _).trans hdrole)
        (Nat.lt_succ_self _) (Function.update_self _ _ _) hlo.le fun j hj ↦ by
          rw [hkept]
          rw [lastEntry_succ] at hj
          exact hwords j (hnext.trans hj)
      refine .inl ⟨_, _, ?_, hok, fun n hn ↦ List.mem_singleton.mp hn ▸ hroom, fun hfound ↦ ?_⟩
      · rw [appendL2, bind_of_ok hupd, get_bind_run]
        simp only
        rw [hword, bind_of_ok hupd', afterL2]
        change (s.takeIno.addBlock s.nextIno 0).block s.used = _ at hself
        rw [hself, hkept, show s.takeIno.block d = s.block d from rfl, hdino]
        rfl
      · rw [found_afterL2, List.forall_mem_singleton]
        exact Caches.found_addBlock h.chains hfound s.nextIno 0
    · rw [if_neg hroom] at hupd'
      refine .inr ⟨.outOfDiskSpace, s, ?_, fun hall ↦
        absurd (hall _ (List.mem_singleton_self _)) hroom⟩
      rw [appendL2, bind_of_ok hupd, get_bind_run]
      simp only
      rw [hword, bind_of_error hupd']
  -- the entry block has room left, and both cache blocks are found
  · have hsame : (f.nblks - sfsL1Nblks) / sfsBlkNentry = lastEntry f.nblks := by
      rw [lastEntry]
      rw [sfsBlkNentry_eq] at *
      omega
    have hupd' : (updateCache f.l1 ((s.block d).word (lastEntry f.nblks))).run s
        = .ok (p, (s.block d).word (lastEntry f.nblks)) s := by
      rw [hl1, ← hpino]
      exact updateCache_same (h.ino p hp)
    have hok := cacheOk_afterL2 size ino h (h.midway k) (f := f) hd hdrole hp
      hprole hlo.le fun j hj ↦ by
        rw [lastEntry_succ, hsame] at hj
        exact hwords j hj
    rw [if_neg hnew]
    refine .inl ⟨_, _, ?_, hok, fun n hn ↦ absurd hn List.not_mem_nil, fun hfound ↦ ?_⟩
    · rw [appendL2, bind_of_ok hupd, get_bind_run]
      simp only
      rw [hsame, bind_of_ok hupd', afterL2, hsame, hpino, hdino]
      rfl
    · rw [found_afterL2]
      exact iff_of_true hfound fun n hn ↦ absurd hn List.not_mem_nil

end Append

/-- What a call of `append_block` does: the numbers it takes depend on the length of the file. -/
theorem CacheOk.appendBlock (h : CacheOk s role) (k size ino : ℕ) :
    CallOk s (List.range' s.nextIno (newBlocks (s.files k).nblks)) (appendBlock k size ino) := by
  have hrun : (CacheChains.appendBlock k size ino).run s = _ := get_bind_run _ s
  rw [CallOk, hrun]
  rw [newBlocks]
  by_cases hbig : sfsLnNblks ≤ (s.files k).nblks
  · rw [if_pos hbig, if_pos hbig]
    exact .inr ⟨.fileTooBig, s, rfl, fun _ ↦ rfl⟩
  rw [if_neg hbig, if_neg hbig]
  by_cases hdirect : (s.files k).nblks < sfsNdirect
  · -- a direct block
    have hone : (s.files k).nblks ≠ sfsNdirect := hdirect.ne
    have hlong : (s.files k).nblks < sfsL1Nblks := hdirect.trans (by decide)
    rw [if_pos hdirect, if_neg hone, if_neg hlong.ne, if_neg fun hcon ↦ hlong.not_gt hcon.1]
    have hfile := h.file k
    refine .inl ⟨_, role, rfl, (h.midway k).setFile h ⟨fun _ ↦ hfile.indirect hdirect.le,
      fun _ ↦ hfile.dbIndirect hlong.le, fun hlt ↦ ?_, fun hlt ↦ ?_⟩,
      fun n hn ↦ absurd hn List.not_mem_nil, fun hfound ↦ ?_⟩
    · exact absurd hdirect (Nat.not_lt_of_le (Nat.le_of_lt_succ hlt))
    · exact absurd hlong (Nat.not_lt_of_le (Nat.le_of_lt_succ hlt))
    · exact iff_of_true ((Caches.found_congr rfl rfl fun _ ↦ rfl).mpr hfound)
        fun n hn ↦ absurd hn List.not_mem_nil
  rw [if_neg hdirect]
  by_cases hl1 : (s.files k).nblks < sfsL1Nblks
  · rw [if_pos hl1, if_neg hl1.ne]
    rcases Nat.eq_or_lt_of_le (not_lt.mp hdirect) with heq | hlt
    · rw [if_pos heq.symm]
      exact appendL1_new h rfl heq.symm
    · rw [if_neg hlt.ne', if_neg fun hcon ↦ hl1.not_gt hcon.1]
      exact appendL1_old h rfl hlt hl1
  · have hl2 : (s.files k).nblks < sfsL2Nblks := (not_le.mp hbig).trans (by decide)
    have hne : (s.files k).nblks ≠ sfsNdirect := fun heq ↦ hl1 (heq ▸ by decide)
    rw [if_neg hl1, if_pos hl2, if_neg hne]
    rcases Nat.eq_or_lt_of_le (not_lt.mp hl1) with heq | hlt
    · rw [if_pos heq.symm]
      exact appendL2_first h rfl heq.symm
    · have hlater := appendL2_later size ino h rfl hlt
      rw [if_neg hlt.ne']
      by_cases hnew : ((s.files k).nblks - sfsL1Nblks) % sfsBlkNentry = 0
      · rw [if_pos hnew] at hlater
        rw [if_pos ⟨hlt, hnew⟩]
        exact hlater
      · rw [if_neg hnew] at hlater
        rw [if_neg fun hcon ↦ hnew hcon.2]
        exact hlater

/-- A block that is for no file. -/
theorem CacheOk.addBlock (h : CacheOk s role) {n : ℕ} (hn : n ≠ 0) (key : ℕ) :
    CacheOk (s.addBlock n key) (Function.update role s.used none) where
  next := h.next
  ino := ((h.midway 0).addBlock hn key none).ino
  chains := h.chains.addBlock n key
  file k := (h.file k).keep (keeps_addBlock s role (k + 1) n key none) (Nat.succ_ne_self k).symm

theorem CacheOk.takeIno (h : CacheOk s role) : CacheOk s.takeIno role :=
  ⟨Nat.succ_pos _, h.ino, h.chains, fun k ↦
    ⟨(h.file k).indirect, (h.file k).dbIndirect, (h.file k).one, (h.file k).two⟩⟩

theorem sfsAllocIno_run (s : Caches) : sfsAllocIno.run s =
    if s.nextIno < s.ninos then .ok s.nextIno s.takeIno else .error .outOfDiskSpace s := by
  rw [sfsAllocIno, get_bind_run]
  by_cases hroom : s.nextIno < s.ninos
  · rw [if_pos hroom, if_pos hroom]
    rfl
  · rw [if_neg hroom, if_neg hroom, run_fail]

/-- The numbers that a call takes for cache blocks, if the image has room for them. -/
def Op.taken (s : Caches) : Op → List ℕ
  | .take => []
  | .alloc ino => if ino = 0 then [s.nextIno] else []
  | .append k _ _ => List.range' s.nextIno (newBlocks (s.files k).nblks)

theorem CacheOk.call (h : CacheOk s role) (op : Op) : CallOk s (op.taken s) op.prog := by
  cases op with
  | take =>
    have hrun := sfsAllocIno_run s
    by_cases hroom : s.nextIno < s.ninos
    · rw [if_pos hroom] at hrun
      refine .inl ⟨s.takeIno, role, bind_of_ok hrun _, h.takeIno,
        fun n hn ↦ absurd hn List.not_mem_nil, fun hfound ↦ ?_⟩
      exact iff_of_true ((Caches.found_congr rfl rfl fun _ ↦ rfl).mpr hfound)
        fun n hn ↦ absurd hn List.not_mem_nil
    · rw [if_neg hroom] at hrun
      exact .inr ⟨.outOfDiskSpace, s, bind_of_error hrun _, fun _ ↦ rfl⟩
  | alloc ino =>
    rw [Op.taken, Op.prog]
    by_cases hzero : ino = 0
    · subst hzero
      have hrun := sfsAllocIno_run s
      have hnot : ¬(0 : ℕ) ≠ 0 := not_not.mpr rfl
      rw [if_pos rfl, allocCacheBlock, if_neg hnot]
      by_cases hroom : s.nextIno < s.ninos
      · rw [if_pos hroom] at hrun
        refine .inl ⟨s.takeIno.addBlock s.nextIno 0, _, ?_, h.takeIno.addBlock h.next.ne' 0,
          fun n hn ↦ List.mem_singleton.mp hn ▸ hroom, fun hfound ↦ ?_⟩
        · exact (bind_of_ok ((bind_of_ok hrun _).trans rfl) _)
        · rw [List.forall_mem_singleton]
          exact Caches.found_addBlock h.chains hfound s.nextIno 0
      · rw [if_neg hroom] at hrun
        refine .inr ⟨.outOfDiskSpace, s, bind_of_error (bind_of_error hrun _) _, fun hall ↦ ?_⟩
        exact absurd (hall _ (List.mem_singleton_self _)) hroom
    · -- a block that is filed under its own number
      rw [if_neg hzero, allocCacheBlock, if_pos hzero]
      refine .inl ⟨s.addBlock ino ino, _, rfl, h.addBlock hzero ino,
        fun n hn ↦ absurd hn List.not_mem_nil, fun hfound ↦ ?_⟩
      exact iff_of_true ((Caches.found_addBlock h.chains hfound ino ino).mpr (.inl rfl))
        fun n hn ↦ absurd hn List.not_mem_nil
  | append k size ino => exact h.appendBlock k size.1 ino

end Step

/-! ## Runs -/

theorem cacheOk_start (ninos : ℕ) {nextIno : ℕ} (h : 0 < nextIno) :
    CacheOk (start ninos nextIno) fun _ ↦ none where
  next := h
  ino _ hp := absurd hp (Nat.not_lt_zero _)
  chains _ _ hp := absurd hp List.not_mem_nil
  file _ :=
    { indirect := fun _ ↦ rfl
      dbIndirect := fun _ ↦ rfl
      one := fun hlt ↦ absurd hlt (Nat.not_lt_zero _)
      two := fun hlt ↦ absurd hlt (Nat.not_lt_zero _) }

theorem found_start (ninos nextIno : ℕ) : (start ninos nextIno).Found := fun _ hp ↦
  absurd hp (Nat.not_lt_zero _)

/-- No assertion fails, whatever the calls are, and the invariant is kept. -/
theorem runCalls_ok (ninos : ℕ) {nextIno : ℕ} (h : 0 < nextIno) (ops : List Op) :
    (∃ s role, (runCalls ops).run (start ninos nextIno) = .ok () s ∧ CacheOk s role) ∨
      ∃ e s, (runCalls ops).run (start ninos nextIno) = .error e s := by
  induction ops using List.reverseRecOn with
  | nil => exact .inl ⟨_, _, rfl, cacheOk_start ninos h⟩
  | append_singleton ops op ih =>
    rw [runCalls_concat]
    rcases ih with ⟨s, role, hrun, hok⟩ | ⟨e, s, hrun⟩
    · rw [bind_of_ok hrun]
      rcases hok.call op with ⟨s', role', hop, hok', -⟩ | ⟨e, s', hop, -⟩
      · exact .inl ⟨s', role', hop, hok'⟩
      · exact .inr ⟨e, s', hop⟩
    · exact .inr ⟨e, s, bind_of_error hrun _⟩

/-- After every call of a sequence the search finds all blocks, and no assertion has failed. -/
def AllFound (s₀ : Caches) (ops : List Op) : Prop :=
  ∀ pre, pre <+: ops → (runCalls pre).run s₀ ≠ .panic ∧
    ∀ s, (runCalls pre).run s₀ = .ok () s → s.Found

/-- The numbers that a call takes for cache blocks fall into the chain of zero, under which they are
filed, or there is a block with that number already; if there are not as many numbers, the call does
not come to an end. -/
def Op.Fits (s : Caches) (op : Op) : Prop :=
  (∀ n ∈ op.taken s, n < s.ninos) → ∀ n ∈ op.taken s, s.Fits 0 n

/-- The search finds every block after every call exactly when all numbers chosen inside fit. -/
theorem allFound_iff_fits (ninos : ℕ) {nextIno : ℕ} (h : 0 < nextIno) (ops : List Op) :
    AllFound (start ninos nextIno) ops ↔
      ∀ pre op, pre ++ [op] <+: ops →
        ∀ s, (runCalls pre).run (start ninos nextIno) = .ok () s → op.Fits s := by
  constructor
  · intro hall pre op hpre s hrun
    have hpre' : pre <+: ops := (List.prefix_append pre [op]).trans hpre
    obtain ⟨s₁, role, hrun₁, hok⟩ | ⟨e, s₁, hrun₁⟩ := runCalls_ok ninos h pre
    · obtain rfl : s₁ = s := by
        rw [hrun₁] at hrun
        exact (Outcome.ok.inj hrun).2
      have hfound := (hall pre hpre').2 s₁ hrun
      intro hroom
      rcases hok.call op with ⟨s', role', hop, -, -, hiff⟩ | ⟨e, s', hop, hnone⟩
      · refine (hiff hfound).mp ((hall _ hpre).2 s' ?_)
        rw [runCalls_concat, bind_of_ok hrun, hop]
      · rw [hnone hroom]
        exact fun n hn ↦ absurd hn List.not_mem_nil
    · rw [hrun₁] at hrun
      cases hrun
  · intro hfits pre hpre
    refine ⟨?_, ?_⟩
    · obtain ⟨s, role, hrun, -⟩ | ⟨e, s, hrun⟩ := runCalls_ok ninos h pre
      · rw [hrun]
        exact Outcome.ok_ne_panic
      · rw [hrun]
        exact Outcome.error_ne_panic
    · induction pre using List.reverseRecOn with
      | nil =>
        intro s hrun
        obtain rfl : start ninos nextIno = s := (Outcome.ok.inj hrun).2
        exact found_start ninos nextIno
      | append_singleton pre op ih =>
        intro s' hrun'
        have hpre' : pre <+: ops := (List.prefix_append pre [op]).trans hpre
        rw [runCalls_concat] at hrun'
        obtain ⟨s, role, hrun, hok⟩ | ⟨e, s, hrun⟩ := runCalls_ok ninos h pre
        · rw [bind_of_ok hrun] at hrun'
          rcases hok.call op with ⟨s₁, role', hop, -, hroom, hiff⟩ | ⟨e, s₁, hop, -⟩
          · rw [hop] at hrun'
            obtain rfl : s₁ = s' := (Outcome.ok.inj hrun').2
            exact (hiff (ih hpre' s hrun)).mpr (hfits pre op hpre s hrun hroom)
          · rw [hop] at hrun'
            cases hrun'
        · rw [bind_of_error hrun] at hrun'
          cases hrun'

/-- On an image of 8192 blocks the first block whose number is chosen inside is not found. -/
theorem alloc_not_found : ¬AllFound (start 8192 3) [.alloc 0] := by
  intro hall
  have hok := cacheOk_start 8192 (show 0 < 3 by decide)
  have hrun : (runCalls [.alloc 0]).run (start 8192 3)
      = .ok () ((start 8192 3).takeIno.addBlock 3 0) := rfl
  have hfound := (hall _ (List.prefix_refl _)).2 _ hrun
  have hfits := (Caches.found_addBlock hok.takeIno.chains
    ((Caches.found_congr rfl rfl fun _ ↦ rfl).mpr (found_start 8192 3)) 3 0).mp hfound
  revert hfits
  decide

/-- A block that is allocated with an explicit number is found. -/
theorem allFound_explicit : AllFound (start 2048 3) [.alloc 5] := by
  refine (allFound_iff_fits 2048 (by decide) _).mpr fun pre op hpre s _ _ n hn ↦ ?_
  have hop : op = .alloc 5 :=
    List.mem_singleton.mp (hpre.subset (List.mem_append_right pre (List.mem_singleton_self op)))
  rw [hop] at hn
  exact absurd hn List.not_mem_nil

end Ucore.CacheChains
