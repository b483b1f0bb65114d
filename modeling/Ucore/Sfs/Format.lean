import Mathlib.Tactic
import Ucore.Lib.Bytes

/-!
# The on-disk format of the Simple FS

`kern/fs/sfs/sfs.h`: the constants of the format, the superblock, the on-disk inode and the
directory entry, each with the bytes the compiler lays it out in and the way those bytes are read
back. Fields are natural numbers; `InRange` says that they fit the C types, which is all that
reading back what was written needs.
-/

namespace Ucore

open Bytes

def sfsBlksize : ℕ := 4096

def sfsNdirect : ℕ := 12

/-- `SFS_BLK_NENTRY`, the number of block numbers in an indirect block. -/
def sfsBlkNentry : ℕ := sfsBlksize / 4

/-- `SFS_BLKBITS`, the number of blocks one block of the freemap describes. -/
def sfsBlkbits : ℕ := sfsBlksize * 8

def sfsMaxFileSize : ℕ := 1024 * 1024 * 128

def sfsMaxFnameLen : ℕ := 255

def sfsMagic : ℕ := 0x2f8dbe2a

def sfsBlknSuper : ℕ := 0

def sfsBlknRoot : ℕ := 1

def sfsBlknFreemap : ℕ := 2

def sfsTypeFile : ℕ := 1

def sfsTypeDir : ℕ := 2

def sfsTypeLink : ℕ := 3

@[simp] theorem sfsBlksize_eq : sfsBlksize = 4096 := rfl

@[simp] theorem sfsNdirect_eq : sfsNdirect = 12 := rfl

@[simp] theorem sfsBlkNentry_eq : sfsBlkNentry = 1024 := rfl

@[simp] theorem sfsBlkbits_eq : sfsBlkbits = 32768 := rfl

@[simp] theorem sfsMaxFileSize_eq : sfsMaxFileSize = 134217728 := rfl

@[simp] theorem sfsMaxFnameLen_eq : sfsMaxFnameLen = 255 := rfl

/-! ## The superblock -/

/-- `struct sfs_super`. -/
structure SfsSuper where
  magic : ℕ
  blocks : ℕ
  unusedBlocks : ℕ
  info : Fin 32 → UInt8

namespace SfsSuper

/-- `sizeof(struct sfs_super)`. -/
def size : ℕ := 44

/-- The fields fit their C types. -/
structure InRange (sb : SfsSuper) : Prop where
  magic : sb.magic < 2 ^ 32
  blocks : sb.blocks < 2 ^ 32
  unusedBlocks : sb.unusedBlocks < 2 ^ 32

/-- The superblock as laid out in memory. -/
def bytes (sb : SfsSuper) : Bytes := fun i ↦
  if i < 4 then leByte sb.magic i
  else if i < 8 then leByte sb.blocks (i - 4)
  else if i < 12 then leByte sb.unusedBlocks (i - 8)
  else if h : i - 12 < 32 then sb.info ⟨i - 12, h⟩
  else 0

/-- The superblock found in a buffer. -/
def ofBytes (b : Bytes) : SfsSuper where
  magic := read32 b 0
  blocks := read32 b 4
  unusedBlocks := read32 b 8
  info j := b (12 + j)

theorem ofBytes_congr {b c : Bytes} (h : ∀ i < 44, b i = c i) : ofBytes b = ofBytes c := by
  rw [ofBytes, ofBytes, read32_congr fun i _ hi ↦ h i (by omega),
    read32_congr (o := 4) fun i _ hi ↦ h i (by omega),
    read32_congr (o := 8) fun i _ hi ↦ h i (by omega)]
  congr 1
  funext j
  exact h _ (by omega)

theorem ofBytes_bytes {sb : SfsSuper} (h : sb.InRange) : ofBytes sb.bytes = sb := by
  have hmagic : read32 sb.bytes 0 = sb.magic := read32_of_le h.magic fun i hi ↦ by
    rw [bytes, Nat.zero_add, if_pos (by omega)]
  have hblocks : read32 sb.bytes 4 = sb.blocks := read32_of_le h.blocks fun i hi ↦ by
    rw [bytes, if_neg (by omega), if_pos (by omega), Nat.add_sub_cancel_left]
  have hunused : read32 sb.bytes 8 = sb.unusedBlocks := read32_of_le h.unusedBlocks fun i hi ↦ by
    rw [bytes, if_neg (by omega), if_neg (by omega), if_pos (by omega), Nat.add_sub_cancel_left]
  have hinfo : (fun j : Fin 32 ↦ sb.bytes (12 + j)) = sb.info := by
    funext j
    rw [bytes, if_neg (by omega), if_neg (by omega), if_neg (by omega),
      dif_pos (by omega : 12 + (j : ℕ) - 12 < 32)]
    congr 1
    exact Fin.ext (by simp)
  rw [ofBytes, hmagic, hblocks, hunused, hinfo]

end SfsSuper

/-! ## The on-disk inode -/

/-- `struct sfs_disk_inode`. -/
structure SfsDiskInode where
  size : ℕ
  type : ℕ
  nlinks : ℕ
  blocks : ℕ
  direct : Fin 12 → ℕ
  indirect : ℕ

namespace SfsDiskInode

/-- `sizeof(struct sfs_disk_inode)`. -/
def sizeof : ℕ := 64

/-- The fields fit their C types. -/
structure InRange (din : SfsDiskInode) : Prop where
  size : din.size < 2 ^ 32
  type : din.type < 2 ^ 16
  nlinks : din.nlinks < 2 ^ 16
  blocks : din.blocks < 2 ^ 32
  direct : ∀ j, din.direct j < 2 ^ 32
  indirect : din.indirect < 2 ^ 32

/-- The inode as laid out in memory. -/
def bytes (din : SfsDiskInode) : Bytes := fun i ↦
  if i < 4 then leByte din.size i
  else if i < 6 then leByte din.type (i - 4)
  else if i < 8 then leByte din.nlinks (i - 6)
  else if i < 12 then leByte din.blocks (i - 8)
  else if h : (i - 12) / 4 < 12 then leByte (din.direct ⟨(i - 12) / 4, h⟩) ((i - 12) % 4)
  else if i < 64 then leByte din.indirect (i - 60)
  else 0

/-- The inode found in a buffer. -/
def ofBytes (b : Bytes) : SfsDiskInode where
  size := read32 b 0
  type := read16 b 4
  nlinks := read16 b 6
  blocks := read32 b 8
  direct j := read32 b (12 + 4 * j)
  indirect := read32 b 60

theorem ofBytes_inRange (b : Bytes) : (ofBytes b).InRange where
  size := read32_lt b 0
  type := read16_lt b 4
  nlinks := read16_lt b 6
  blocks := read32_lt b 8
  direct _ := read32_lt b _
  indirect := read32_lt b 60

theorem ofBytes_congr {b c : Bytes} (h : ∀ i < 64, b i = c i) : ofBytes b = ofBytes c := by
  have hdirect : (fun j : Fin 12 ↦ read32 b (12 + 4 * j))
      = fun j : Fin 12 ↦ read32 c (12 + 4 * j) := by
    funext j
    exact read32_congr fun i _ hi ↦ h i (by omega)
  rw [ofBytes, ofBytes, hdirect, read32_congr fun i _ hi ↦ h i (by omega),
    read16_congr (o := 4) fun i _ hi ↦ h i (by omega),
    read16_congr (o := 6) fun i _ hi ↦ h i (by omega),
    read32_congr (o := 8) fun i _ hi ↦ h i (by omega),
    read32_congr (o := 60) fun i _ hi ↦ h i (by omega)]

theorem type_ofBytes_bytes {din : SfsDiskInode} (h : din.type < 2 ^ 16) :
    (ofBytes din.bytes).type = din.type :=
  read16_of_le h fun i hi ↦ by
    rw [bytes, if_neg (by omega), if_pos (by omega), Nat.add_sub_cancel_left]

theorem blocks_ofBytes_bytes {din : SfsDiskInode} (h : din.blocks < 2 ^ 32) :
    (ofBytes din.bytes).blocks = din.blocks :=
  read32_of_le h fun i hi ↦ by
    rw [bytes, if_neg (by omega), if_neg (by omega), if_neg (by omega), if_pos (by omega),
      Nat.add_sub_cancel_left]

theorem direct_ofBytes_bytes {din : SfsDiskInode} {j : Fin 12} (h : din.direct j < 2 ^ 32) :
    (ofBytes din.bytes).direct j = din.direct j := by
  refine read32_of_le h fun i hi ↦ ?_
  have hj : (12 + 4 * (j : ℕ) + i - 12) / 4 = j := by omega
  rw [bytes, if_neg (by omega), if_neg (by omega), if_neg (by omega), if_neg (by omega),
    dif_pos (by omega)]
  congr 1
  · congr 1
    exact Fin.ext hj
  · omega

theorem indirect_ofBytes_bytes {din : SfsDiskInode} (h : din.indirect < 2 ^ 32) :
    (ofBytes din.bytes).indirect = din.indirect :=
  read32_of_le h fun i hi ↦ by
    rw [bytes, if_neg (by omega), if_neg (by omega), if_neg (by omega), if_neg (by omega),
      dif_neg (by omega), if_pos (by omega), Nat.add_sub_cancel_left]

theorem ofBytes_bytes {din : SfsDiskInode} (h : din.InRange) : ofBytes din.bytes = din := by
  have hsize : read32 din.bytes 0 = din.size := read32_of_le h.size fun i hi ↦ by
    rw [bytes, Nat.zero_add, if_pos (by omega)]
  have htype : read16 din.bytes 4 = din.type := type_ofBytes_bytes h.type
  have hnlinks : read16 din.bytes 6 = din.nlinks := read16_of_le h.nlinks fun i hi ↦ by
    rw [bytes, if_neg (by omega), if_neg (by omega), if_pos (by omega), Nat.add_sub_cancel_left]
  have hblocks : read32 din.bytes 8 = din.blocks := blocks_ofBytes_bytes h.blocks
  have hdirect : (fun j : Fin 12 ↦ read32 din.bytes (12 + 4 * j)) = din.direct :=
    funext fun j ↦ direct_ofBytes_bytes (h.direct j)
  have hindirect : read32 din.bytes 60 = din.indirect := indirect_ofBytes_bytes h.indirect
  rw [ofBytes, hsize, htype, hnlinks, hblocks, hdirect, hindirect]

/-- Laying out the inode that was found in a buffer gives the buffer back. -/
theorem bytes_ofBytes (b : Bytes) {i : ℕ} (hi : i < 64) : (ofBytes b).bytes i = b i := by
  rw [bytes, ofBytes]
  dsimp only
  split_ifs with h₄ h₆ h₈ h₁₂ hdirect
  · rw [leByte_read32 b 0 h₄, Nat.zero_add]
  · rw [leByte_read16 b 4 (by omega)]
    congr 1
    omega
  · rw [leByte_read16 b 6 (by omega)]
    congr 1
    omega
  · rw [leByte_read32 b 8 (by omega)]
    congr 1
    omega
  · rw [leByte_read32 b _ (by omega)]
    congr 1
    omega
  · rw [leByte_read32 b 60 (by omega)]
    congr 1
    omega

end SfsDiskInode

/-! ## The directory entry -/

/-- `struct sfs_disk_entry`; `name` is an array of `SFS_MAX_FNAME_LEN + 1` characters. -/
structure SfsDiskEntry where
  ino : ℕ
  name : Bytes

namespace SfsDiskEntry

/-- `sizeof(struct sfs_disk_entry)`. -/
def sizeof : ℕ := 260

/-- `sfs_dentry_size`, the size of the name array. -/
def nameSize : ℕ := 256

/-- The entry found in a buffer. -/
def ofBytes (b : Bytes) : SfsDiskEntry where
  ino := read32 b 0
  name j := b (4 + j)

end SfsDiskEntry

end Ucore
