import Ucore.Lib.CString
import Ucore.Lib.Prog
import Ucore.Sfs.Io

/-!
# Building an image

`tools/mksfs.c`, which runs on the host and writes the image the kernel mounts: it hands out block
numbers in increasing order, writes data blocks at once, and keeps inodes and the blocks of indirect
entries in memory until `close_sfs`. Those live on the heap of the host and are named here by the
block number they will be written to. A call of `bug` ends the program with a message.

The host's own directories are not modelled: `open_dir` walks them and calls `add_dir`, `add_file`,
`add_link` and `add_entry` for what it finds, and a run here is any sequence of what these do.
-/

namespace Ucore

open Bytes Prog

/-- The calls of `bug` that the modelled functions make. -/
inductive MkBug
  | imgTooSmall
  | outOfDiskSpace
  | fileTooBig
  | linkTooLong
  deriving DecidableEq, Repr

/-- `struct inode` of `mksfs.c`. -/
structure MkInode where
  size : ℕ
  type : ℕ
  nlinks : ℕ
  blocks : ℕ
  direct : Fin 12 → ℕ
  indirect : ℕ
  dbIndirect : ℕ

/-- `sizeof(struct inode)`. -/
def MkInode.sizeof : ℕ := 68

/-- The inode as laid out in memory: the fields the kernel knows, then `db_indirect`. -/
def MkInode.bytes (inode : MkInode) : Bytes := fun i ↦
  if i < 64 then
    SfsDiskInode.bytes ⟨inode.size, inode.type, inode.nlinks, inode.blocks, inode.direct,
      inode.indirect⟩ i
  else leByte inode.dbIndirect (i - 64)

/-- `struct cache_inode`, without the hash chain. A pointer to a cache block is its number. -/
structure CacheInode where
  inode : MkInode
  real : ℕ
  ino : ℕ
  nblks : ℕ
  l1 : Option ℕ
  l2 : Option ℕ

/-- `struct sfs_fs` of `mksfs.c`, with the image file and the static buffer of `add_entry`. `cache`
and `inodes` are the heap objects; the hash tables hold their numbers. -/
structure MkSfs where
  blocks : ℕ
  unusedBlocks : ℕ
  info : Fin 32 → UInt8
  ninos : ℕ
  nextIno : ℕ
  img : ℕ → Bytes
  cache : ℕ → Option Bytes
  cacheTable : ℕ → List ℕ
  inodes : ℕ → Option CacheInode
  inodeTable : ℕ → List ℕ
  entry : Bytes

def hashListSize : ℕ := 1024

/-- `hash32`, and `hash64` on numbers that fit 32 bits. -/
def hash32 (val : ℕ) : ℕ := val % 2 ^ 32 * 0x9e370001 % 2 ^ 32 / 2 ^ 22

def sfsMaxNblks : ℕ := 1024 * 512

def sfsL1Nblks : ℕ := sfsBlkNentry + sfsNdirect

def sfsL2Nblks : ℕ := sfsBlkNentry * sfsBlkNentry + sfsL1Nblks

def sfsLnNblks : ℕ := sfsMaxFileSize / sfsBlksize

@[simp] theorem sfsL1Nblks_eq : sfsL1Nblks = 1036 := rfl

@[simp] theorem sfsL2Nblks_eq : sfsL2Nblks = 1049612 := rfl

@[simp] theorem sfsLnNblks_eq : sfsLnNblks = 32768 := rfl

/-! ## Numbers, blocks and inodes -/

def sfsAllocIno : Prog MkBug MkSfs ℕ := do
  let sfs ← get
  if sfs.nextIno < sfs.ninos then
    modify fun s ↦ { s with unusedBlocks := s.unusedBlocks - 1, nextIno := s.nextIno + 1 }
    return sfs.nextIno
  else
    fail .outOfDiskSpace

/-- `alloc_cache_block`. The new block goes into the chain of `ino`, the argument, and not into the
one of the number it gets. -/
def allocCacheBlock (ino : ℕ) : Prog MkBug MkSfs ℕ := do
  let cb ← if ino ≠ 0 then pure ino else sfsAllocIno
  modify fun s ↦ { s with
    cache := Function.update s.cache cb (some zero)
    cacheTable := Function.update s.cacheTable (hash32 ino) (cb :: s.cacheTable (hash32 ino)) }
  return cb

def searchCacheBlock (s : MkSfs) (ino : ℕ) : Option ℕ :=
  (s.cacheTable (hash32 ino)).find? (· == ino)

/-- Store through a pointer to a cache inode. -/
def putCi (k : ℕ) (ci : CacheInode) : Prog MkBug MkSfs Unit :=
  modify fun s ↦ { s with inodes := Function.update s.inodes k (some ci) }

/-- Follow a pointer to a cache inode. -/
def getCi (k : ℕ) : Prog MkBug MkSfs CacheInode := do
  match (← get).inodes k with
  | some ci => return ci
  | none => halt

def allocCacheInode (real ino type : ℕ) : Prog MkBug MkSfs ℕ := do
  let k ← if ino ≠ 0 then pure ino else sfsAllocIno
  putCi k
    { inode := ⟨0, type, 0, 0, fun _ ↦ 0, 0, 0⟩, real := real, ino := k, nblks := 0, l1 := none,
      l2 := none }
  modify fun s ↦ { s with
    inodeTable := Function.update s.inodeTable (hash32 real) (k :: s.inodeTable (hash32 real)) }
  return k

def searchCacheInode (s : MkSfs) (real : ℕ) : Option ℕ :=
  (s.inodeTable (hash32 real)).find? fun k ↦
    match s.inodes k with
    | some ci => ci.real == real
    | none => false

def writeBlock (data : Bytes) (len ino : ℕ) : Prog MkBug MkSfs Unit := do
  let sfs ← get
  assert (len ≤ sfsBlksize ∧ ino < sfs.ninos)
  if len ≠ sfsBlksize then
    modify fun s ↦ { s with
      img := Function.update s.img ino (memcpy (s.img ino) 0 (memcpy zero 0 data 0 len) 0 4096) }
  else
    modify fun s ↦ { s with
      img := Function.update s.img ino (memcpy (s.img ino) 0 data 0 4096) }

/-- `create_sfs` on an image of `imgBlocks` blocks, a number that is cut to 32 bits and then to
`SFS_MAX_NBLKS`. What `snprintf` leaves undefined in `info` is in `info`. -/
def createSfs (imgBlocks : ℕ) (img : ℕ → Bytes) (info : Fin 32 → UInt8) (entry : Bytes) :
    Except MkBug MkSfs :=
  let ninos := min (imgBlocks % 2 ^ 32) sfsMaxNblks
  let nextIno := sfsBlknFreemap + (ninos + sfsBlkbits - 1) / sfsBlkbits
  if ninos ≤ nextIno then .error .imgTooSmall
  else
    let root : CacheInode :=
      { inode := ⟨0, sfsTypeDir, 0, 0, fun _ ↦ 0, 0, 0⟩, real := 0, ino := sfsBlknRoot, nblks := 0,
        l1 := none, l2 := none }
    .ok
      { blocks := ninos, unusedBlocks := ninos - nextIno, info := info, ninos := ninos,
        nextIno := nextIno, img := img, cache := fun _ ↦ none, cacheTable := fun _ ↦ [],
        inodes := fun k ↦ if k = sfsBlknRoot then some root else none,
        inodeTable := fun h ↦ if h = hash32 0 then [sfsBlknRoot] else [], entry := entry }

/-! ## Appending -/

/-- `update_cache` on the pointer `*cbp` and the number `*inop`: their new values, which agree. -/
def updateCache (cbp : Option ℕ) (inop : ℕ) : Prog MkBug MkSfs ℕ := do
  if inop = 0 then
    allocCacheBlock 0
  else if cbp ≠ some inop then
    let sfs ← get
    assert (searchCacheBlock sfs inop = some inop)
    return inop
  else
    return inop

/-- Read word `j` of a cache block. -/
def loadWord (cb j : ℕ) : Prog MkBug MkSfs ℕ := do
  match (← get).cache cb with
  | some b => return read32 b (4 * j)
  | none => halt

/-- Write word `j` of a cache block. -/
def storeWord (cb j n : ℕ) : Prog MkBug MkSfs Unit := do
  match (← get).cache cb with
  | some b =>
    modify fun s ↦ { s with
      cache := Function.update s.cache cb (some (memcpy b (4 * j) (le n) 0 4)) }
  | none => halt

/-- `file->nblks ++, inode->size += size, inode->blocks ++`. -/
def CacheInode.count (ci : CacheInode) (size : ℕ) : CacheInode :=
  { ci with
    inode := { ci.inode with
      size := (ci.inode.size + size) % 2 ^ 32
      blocks := (ci.inode.blocks + 1) % 2 ^ 32 }
    nblks := ci.nblks + 1 }

def appendBlock (k size ino : ℕ) : Prog MkBug MkSfs Unit := do
  assert (size ≤ sfsBlksize)
  let file ← getCi k
  if sfsLnNblks ≤ file.nblks then
    fail .fileTooBig
  else if h : file.nblks < 12 then
    putCi k (CacheInode.count { file with
      inode := { file.inode with
        direct := Function.update file.inode.direct ⟨file.nblks, h⟩ ino } } size)
  else if file.nblks < sfsL1Nblks then
    let l1 ← updateCache file.l1 file.inode.indirect
    storeWord l1 (file.nblks - sfsNdirect) ino
    putCi k (CacheInode.count { file with
      inode := { file.inode with indirect := l1 }, l1 := some l1 } size)
  else if file.nblks < sfsL2Nblks then
    let l2 ← updateCache file.l2 file.inode.dbIndirect
    let word ← loadWord l2 ((file.nblks - sfsL1Nblks) / sfsBlkNentry)
    let l1 ← updateCache file.l1 word
    storeWord l2 ((file.nblks - sfsL1Nblks) / sfsBlkNentry) l1
    storeWord l1 ((file.nblks - sfsL1Nblks) % sfsBlkNentry) ino
    putCi k (CacheInode.count { file with
      inode := { file.inode with dbIndirect := l2 }, l1 := some l1, l2 := some l2 } size)
  else
    putCi k (CacheInode.count file size)

/-- Chunk `j` of the contents of a host file, as `read` with a buffer of one block returns it. -/
def chunk (data : List UInt8) (j : ℕ) : List UInt8 := (data.drop (4096 * j)).take 4096

/-- The loop of `open_file` from chunk `j` on, with `n` chunks to come. It returns the numbers of
the blocks it wrote, which the source does not. -/
def openFileLoop (k : ℕ) (data : List UInt8) (j last : ℕ) : ℕ → Prog MkBug MkSfs (List ℕ)
  | 0 => return []
  | n + 1 => do
    assert (last = sfsBlksize)
    let ino ← sfsAllocIno
    writeBlock (ofList (chunk data j)) (chunk data j).length ino
    appendBlock k (chunk data j).length ino
    let rest ← openFileLoop k data (j + 1) (chunk data j).length n
    return ino :: rest

/-- `open_file` on a host file with these contents. -/
def openFile (k : ℕ) (data : List UInt8) : Prog MkBug MkSfs (List ℕ) :=
  openFileLoop k data 0 sfsBlksize ((data.length + (sfsBlksize - 1)) / sfsBlksize)

/-- `open_link` on a link with this target. -/
def openLink (k : ℕ) (target : List UInt8) : Prog MkBug MkSfs ℕ := do
  let ino ← sfsAllocIno
  if sfsBlksize ≤ target.length then
    fail .linkTooLong
  else
    writeBlock (ofList target) target.length ino
    appendBlock k target.length ino
    return ino

/-- `sizeof(entry->name)`. The struct is four bytes longer. -/
def mkNameSize : ℕ := 256

/-- `add_entry`. It returns the number of the block it wrote, which the source does not. -/
def addEntry (current file : ℕ) (name : List UInt8) : Prog MkBug MkSfs ℕ := do
  let cur ← getCi current
  assert (cur.inode.type = sfsTypeDir ∧ name.length ≤ sfsMaxFnameLen)
  let ci ← getCi file
  modify fun s ↦ { s with entry := strcpy (memcpy s.entry 0 (le ci.ino) 0 4) 4 name }
  let entryIno ← sfsAllocIno
  let sfs ← get
  writeBlock sfs.entry mkNameSize entryIno
  appendBlock current mkNameSize entryIno
  let ci ← getCi file
  putCi file { ci with inode := { ci.inode with nlinks := (ci.inode.nlinks + 1) % 2 ^ 16 } }
  return entryIno

/-- The branch of `add_file` for a file that was not seen before: its inode, and the numbers of the
blocks its contents went to. -/
def newFile (real : ℕ) (data : List UInt8) : Prog MkBug MkSfs (ℕ × List ℕ) := do
  let k ← allocCacheInode real 0 sfsTypeFile
  let blocks ← openFile k data
  return (k, blocks)

/-- `add_file` up to its call of `add_entry`. -/
def findFile (real : ℕ) (data : List UInt8) : Prog MkBug MkSfs ℕ := do
  match searchCacheInode (← get) real with
  | some k => return k
  | none =>
    let (k, _) ← newFile real data
    return k

/-- `add_link` up to its call of `add_entry`. -/
def newLink (real : ℕ) (target : List UInt8) : Prog MkBug MkSfs ℕ := do
  let k ← allocCacheInode real 0 sfsTypeLink
  let _ ← openLink k target
  return k

/-- `add_dir` up to its call of `open_dir`. -/
def newDir (real : ℕ) : Prog MkBug MkSfs ℕ := do
  let sfs ← get
  assert (searchCacheInode sfs real = none)
  allocCacheInode real 0 sfsTypeDir

/-- What `open_dir` does while it walks the host's directories, one call at a time. -/
inductive MkOp
  | dir (real : ℕ)
  | file (real : ℕ) (data : List UInt8)
  | link (real : ℕ) (target : List UInt8)
  | entry (current file : ℕ) (name : CStr)

/-- One operation. -/
def MkOp.run : MkOp → Prog MkBug MkSfs Unit
  | .dir real => do
    let _ ← newDir real
    return ()
  | .file real data => do
    let _ ← findFile real data
    return ()
  | .link real target => do
    let _ ← newLink real target
    return ()
  | .entry current k name => do
    let _ ← addEntry current k name.1
    return ()

/-- The operations in turn. -/
def runOps : List MkOp → Prog MkBug MkSfs Unit
  | [] => return ()
  | op :: ops => do
    op.run
    runOps ops

/-- The entries that the operations add to directory `k`: inode numbers and names. -/
def dirEntries (k : ℕ) : List MkOp → List (ℕ × CStr)
  | [] => []
  | .entry current file name :: ops =>
    if current = k then (file, name) :: dirEntries k ops else dirEntries k ops
  | .dir _ :: ops => dirEntries k ops
  | .file _ _ :: ops => dirEntries k ops
  | .link _ _ :: ops => dirEntries k ops

/-! ## Closing -/

/-- The buffer `close_sfs` fills for the freemap block that starts at bit `i`. -/
def closeBuffer (ninos nextIno i : ℕ) : Bitmap :=
  let empty : Bitmap := ⟨32768, 1024, fun _ ↦ 0⟩
  if nextIno < i + sfsBlkbits then
    let start := if i < nextIno then nextIno - i else 0
    let stop := if ninos < i + sfsBlkbits then ninos - i else sfsBlkbits
    (List.range' start (stop - start)).foldl Bitmap.set empty
  else empty

/-- The first loop of `close_sfs`: `n` blocks of the freemap. -/
def closeFreemap (ino i : ℕ) : ℕ → Prog MkBug MkSfs Unit
  | 0 => return ()
  | n + 1 => do
    let sfs ← get
    writeBlock (bitmapGetdata (closeBuffer sfs.ninos sfs.nextIno i)) sfsBlksize ino
    closeFreemap (ino + 1) (i + sfsBlkbits) n

/-- The superblock as `close_sfs` writes it. -/
def MkSfs.super (s : MkSfs) : SfsSuper := ⟨sfsMagic, s.blocks, s.unusedBlocks, s.info⟩

/-- `flush_cache_block` down a chain. -/
def flushCacheBlocks : List ℕ → Prog MkBug MkSfs Unit
  | [] => return ()
  | cb :: chain => do
    match (← get).cache cb with
    | some b => writeBlock b sfsBlksize cb
    | none => halt
    flushCacheBlocks chain

/-- `flush_cache_inode` down a chain. -/
def flushCacheInodes : List ℕ → Prog MkBug MkSfs Unit
  | [] => return ()
  | k :: chain => do
    let ci ← getCi k
    writeBlock ci.inode.bytes MkInode.sizeof ci.ino
    flushCacheInodes chain

/-- The second loop of `close_sfs`: `n` pairs of chains from `i` on. -/
def closeChains (i : ℕ) : ℕ → Prog MkBug MkSfs Unit
  | 0 => return ()
  | n + 1 => do
    let sfs ← get
    flushCacheBlocks (sfs.cacheTable i)
    flushCacheInodes (sfs.inodeTable i)
    closeChains (i + 1) n

def closeSfs : Prog MkBug MkSfs Unit := do
  let sfs ← get
  closeFreemap sfsBlknFreemap 0 ((sfs.ninos + (sfsBlkbits - 1)) / sfsBlkbits)
  writeBlock sfs.super.bytes SfsSuper.size sfsBlknSuper
  closeChains 0 hashListSize

end Ucore
