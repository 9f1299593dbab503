import RendangOS.Lib.Image
import Mathlib.Tactic.IntervalCases

/-!
# On-disk layout

The constants of `ext2.h` and `disk.h`, the packed structures of the file
system with their memory images, the directory entry as a view of a block
buffer, and the bit helpers of `utils.h`. A packed structure is copied to and
from disk as a whole, so each has an image and the two conversions are inverse.
-/

namespace RendangOS.Ext2

open Image

/-! ## Constants -/

@[simp] def blockSize : ℕ := 512
@[simp] def bootSector : ℕ := 0
@[simp] def superblockLba : ℕ := 1
@[simp] def bgdtLba : ℕ := superblockLba + 1
@[simp] def blockBitmapLba : ℕ := bgdtLba + 1
@[simp] def inodeBitmapLba : ℕ := blockBitmapLba + 1
@[simp] def inodeTableLba : ℕ := inodeBitmapLba + 1
@[simp] def inodesTableBlockCount : ℕ := 16
@[simp] def rootDirBlockLba : ℕ := inodeTableLba + inodesTableBlockCount

@[simp] def rootInodeNo : ℕ := 2
@[simp] def ext2GoodOldFirstIno : ℕ := 11
@[simp] def diskSpace : ℕ := 4194304
@[simp] def ext2SuperMagic : BitVec 16 := 0xEF53

/-- `sizeof(struct EXT2Inode)`. -/
@[simp] def inodeSize : ℕ := 128
/-- `sizeof(struct EXT2BlockGroupDescriptor)`. -/
@[simp] def descriptorSize : ℕ := 32
/-- `sizeof(struct EXT2DirectoryEntry)`, the name not counted. -/
@[simp] def entryHeader : ℕ := 8

@[simp] def inodesPerTable : ℕ := blockSize / inodeSize
@[simp] def groupsCount : ℕ := blockSize / descriptorSize / 2
/-- `GROUPS_COUNT` is a macro without outer parentheses, so the quotient is
`DISK_SPACE / BLOCK_SIZE / (BLOCK_SIZE / 32) / 2`. -/
@[simp] def blocksPerGroup : ℕ := diskSpace / blockSize / (blockSize / descriptorSize) / 2
@[simp] def inodesPerGroup : ℕ := inodesPerTable * inodesTableBlockCount
@[simp] def totalBlocks : ℕ := blocksPerGroup * (blockSize / descriptorSize) / 2
@[simp] def totalInodes : ℕ := inodesPerGroup * (blockSize / descriptorSize) / 2
@[simp] def initialUsedBlocks : ℕ := 1 + 1 + 1 + 1 + 1 + inodesTableBlockCount + 1
@[simp] def initialUsedInodes : ℕ := ext2GoodOldFirstIno

@[simp] def ext2SIfreg : BitVec 16 := 0x8000
@[simp] def ext2SIfdir : BitVec 16 := 0x4000
@[simp] def ext2FtRegFile : BitVec 8 := 1
@[simp] def ext2FtDir : BitVec 8 := 2

/-- `struct BlockBuffer`. -/
abbrev Block := BitVec 4096

/-! ## Packed structures -/

structure EXT2Superblock where
  s_inodes_count : BitVec 32
  s_blocks_count : BitVec 32
  s_r_blocks_count : BitVec 32
  s_free_blocks_count : BitVec 32
  s_free_inodes_count : BitVec 32
  s_first_data_block : BitVec 32
  s_log_block_size : BitVec 32
  s_log_frag_size : BitVec 32
  s_blocks_per_group : BitVec 32
  s_frags_per_group : BitVec 32
  s_inodes_per_group : BitVec 32
  s_mtime : BitVec 32
  s_wtime : BitVec 32
  s_mnt_count : BitVec 16
  s_max_mnt_count : BitVec 16
  s_magic : BitVec 16
  s_state : BitVec 16
  s_errors : BitVec 16
  s_minor_rev_level : BitVec 16
  s_lastcheck : BitVec 32
  s_checkinterval : BitVec 32
  s_creator_os : BitVec 32
  s_rev_level : BitVec 32
  s_def_resuid : BitVec 16
  s_def_resgid : BitVec 16
  s_first_ino : BitVec 32
  s_inode_size : BitVec 16
  s_block_group_nr : BitVec 16
  s_feature_compat : BitVec 32
  s_feature_incompat : BitVec 32
  s_feature_ro_compat : BitVec 32
  s_uuid : BitVec 128
  s_volume_name : BitVec 128
  s_last_mounted : BitVec 512
  s_algo_bitmap : BitVec 32
deriving DecidableEq

/-- The 204 bytes of the structure. -/
def EXT2Superblock.image (sb : EXT2Superblock) : BitVec 1632 :=
  sb.s_algo_bitmap ++ sb.s_last_mounted ++ sb.s_volume_name ++ sb.s_uuid ++
  sb.s_feature_ro_compat ++ sb.s_feature_incompat ++ sb.s_feature_compat ++
  sb.s_block_group_nr ++ sb.s_inode_size ++ sb.s_first_ino ++
  sb.s_def_resgid ++ sb.s_def_resuid ++ sb.s_rev_level ++ sb.s_creator_os ++
  sb.s_checkinterval ++ sb.s_lastcheck ++ sb.s_minor_rev_level ++ sb.s_errors ++
  sb.s_state ++ sb.s_magic ++ sb.s_max_mnt_count ++ sb.s_mnt_count ++
  sb.s_wtime ++ sb.s_mtime ++ sb.s_inodes_per_group ++ sb.s_frags_per_group ++
  sb.s_blocks_per_group ++ sb.s_log_frag_size ++ sb.s_log_block_size ++
  sb.s_first_data_block ++ sb.s_free_inodes_count ++ sb.s_free_blocks_count ++
  sb.s_r_blocks_count ++ sb.s_blocks_count ++ sb.s_inodes_count

def EXT2Superblock.ofImage (x : BitVec 1632) : EXT2Superblock where
  s_inodes_count := x.extractLsb' 0 32
  s_blocks_count := x.extractLsb' 32 32
  s_r_blocks_count := x.extractLsb' 64 32
  s_free_blocks_count := x.extractLsb' 96 32
  s_free_inodes_count := x.extractLsb' 128 32
  s_first_data_block := x.extractLsb' 160 32
  s_log_block_size := x.extractLsb' 192 32
  s_log_frag_size := x.extractLsb' 224 32
  s_blocks_per_group := x.extractLsb' 256 32
  s_frags_per_group := x.extractLsb' 288 32
  s_inodes_per_group := x.extractLsb' 320 32
  s_mtime := x.extractLsb' 352 32
  s_wtime := x.extractLsb' 384 32
  s_mnt_count := x.extractLsb' 416 16
  s_max_mnt_count := x.extractLsb' 432 16
  s_magic := x.extractLsb' 448 16
  s_state := x.extractLsb' 464 16
  s_errors := x.extractLsb' 480 16
  s_minor_rev_level := x.extractLsb' 496 16
  s_lastcheck := x.extractLsb' 512 32
  s_checkinterval := x.extractLsb' 544 32
  s_creator_os := x.extractLsb' 576 32
  s_rev_level := x.extractLsb' 608 32
  s_def_resuid := x.extractLsb' 640 16
  s_def_resgid := x.extractLsb' 656 16
  s_first_ino := x.extractLsb' 672 32
  s_inode_size := x.extractLsb' 704 16
  s_block_group_nr := x.extractLsb' 720 16
  s_feature_compat := x.extractLsb' 736 32
  s_feature_incompat := x.extractLsb' 768 32
  s_feature_ro_compat := x.extractLsb' 800 32
  s_uuid := x.extractLsb' 832 128
  s_volume_name := x.extractLsb' 960 128
  s_last_mounted := x.extractLsb' 1088 512
  s_algo_bitmap := x.extractLsb' 1600 32

theorem EXT2Superblock.ofImage_image (sb : EXT2Superblock) : ofImage sb.image = sb := by
  obtain ⟨⟩ := sb
  simp (disch := decide) only [ofImage, image, extract_append_low, extract_append_high,
    Nat.reduceSub, BitVec.extractLsb'_eq_self]

structure EXT2BlockGroupDescriptor where
  bg_block_bitmap : BitVec 32
  bg_inode_bitmap : BitVec 32
  bg_inode_table : BitVec 32
  bg_free_blocks_count : BitVec 16
  bg_free_inodes_count : BitVec 16
  bg_used_dirs_count : BitVec 16
  bg_pad : BitVec 16
  bg_reserved : BitVec 96
deriving DecidableEq

/-- The 32 bytes of the structure. -/
def EXT2BlockGroupDescriptor.image (bg : EXT2BlockGroupDescriptor) : BitVec 256 :=
  bg.bg_reserved ++ bg.bg_pad ++ bg.bg_used_dirs_count ++ bg.bg_free_inodes_count ++
  bg.bg_free_blocks_count ++ bg.bg_inode_table ++ bg.bg_inode_bitmap ++ bg.bg_block_bitmap

def EXT2BlockGroupDescriptor.ofImage (x : BitVec 256) : EXT2BlockGroupDescriptor where
  bg_block_bitmap := x.extractLsb' 0 32
  bg_inode_bitmap := x.extractLsb' 32 32
  bg_inode_table := x.extractLsb' 64 32
  bg_free_blocks_count := x.extractLsb' 96 16
  bg_free_inodes_count := x.extractLsb' 112 16
  bg_used_dirs_count := x.extractLsb' 128 16
  bg_pad := x.extractLsb' 144 16
  bg_reserved := x.extractLsb' 160 96

theorem EXT2BlockGroupDescriptor.ofImage_image (bg : EXT2BlockGroupDescriptor) :
    ofImage bg.image = bg := by
  obtain ⟨⟩ := bg
  simp (disch := decide) only [ofImage, image, extract_append_low, extract_append_high,
    Nat.reduceSub, BitVec.extractLsb'_eq_self]

structure EXT2Inode where
  i_mode : BitVec 16
  i_uid : BitVec 16
  i_size : BitVec 32
  i_atime : BitVec 32
  i_ctime : BitVec 32
  i_mtime : BitVec 32
  i_dtime : BitVec 32
  i_gid : BitVec 16
  i_links_count : BitVec 16
  i_blocks : BitVec 32
  i_flags : BitVec 32
  i_osd1 : BitVec 32
  i_block : Vector (BitVec 32) 15
  i_generation : BitVec 32
  i_file_acl : BitVec 32
  i_dir_acl : BitVec 32
  i_faddr : BitVec 32
  i_osd2 : BitVec 96
deriving DecidableEq

/-- `memset(&inode, 0, sizeof(struct EXT2Inode))`. -/
def EXT2Inode.zero : EXT2Inode :=
  ⟨0, 0, 0, 0, 0, 0, 0, 0, 0, 0, 0, 0, Vector.replicate 15 0, 0, 0, 0, 0, 0⟩

/-- The 60 bytes of `i_block`. -/
def packBlocks (v : Vector (BitVec 32) 15) : BitVec 480 :=
  copyCells 0 0 (fun k => v[k]?.getD 0) 15

/-- The 128 bytes of the structure. -/
def EXT2Inode.image (x : EXT2Inode) : BitVec 1024 :=
  x.i_osd2 ++ x.i_faddr ++ x.i_dir_acl ++ x.i_file_acl ++ x.i_generation ++
  packBlocks x.i_block ++ x.i_osd1 ++ x.i_flags ++ x.i_blocks ++ x.i_links_count ++
  x.i_gid ++ x.i_dtime ++ x.i_mtime ++ x.i_ctime ++ x.i_atime ++ x.i_size ++
  x.i_uid ++ x.i_mode

def EXT2Inode.ofImage (x : BitVec 1024) : EXT2Inode where
  i_mode := x.extractLsb' 0 16
  i_uid := x.extractLsb' 16 16
  i_size := x.extractLsb' 32 32
  i_atime := x.extractLsb' 64 32
  i_ctime := x.extractLsb' 96 32
  i_mtime := x.extractLsb' 128 32
  i_dtime := x.extractLsb' 160 32
  i_gid := x.extractLsb' 192 16
  i_links_count := x.extractLsb' 208 16
  i_blocks := x.extractLsb' 224 32
  i_flags := x.extractLsb' 256 32
  i_osd1 := x.extractLsb' 288 32
  i_block := Vector.ofFn fun k => x.extractLsb' (320 + 32 * k.val) 32
  i_generation := x.extractLsb' 800 32
  i_file_acl := x.extractLsb' 832 32
  i_dir_acl := x.extractLsb' 864 32
  i_faddr := x.extractLsb' 896 32
  i_osd2 := x.extractLsb' 928 96

theorem extract_packBlocks (v : Vector (BitVec 32) 15) {k : ℕ} (h : k < 15) :
    (packBlocks v).extractLsb' (32 * k) 32 = v[k] := by
  have hk := extract_copyCells (0 : BitVec 480) 0 (fun k => v[k]?.getD 0) 15 h (by decide)
  simpa [packBlocks, h] using hk

theorem EXT2Inode.extract_image_block (x : EXT2Inode) {k : ℕ} (h : k < 15) :
    x.image.extractLsb' (320 + 32 * k) 32 = x.i_block[k] := by
  unfold image
  iterate 12 rw [extract_append_high _ _ (by omega)]
  rw [extract_append_low _ _ (by omega)]
  rw [show 320 + 32 * k - 16 - 16 - 32 - 32 - 32 - 32 - 32 - 16 - 16 - 32 - 32 - 32 = 32 * k by
    omega]
  exact extract_packBlocks _ h

theorem EXT2Inode.ofImage_image (x : EXT2Inode) : ofImage x.image = x := by
  have hblock : (ofImage x.image).i_block = x.i_block :=
    Vector.ext fun k hk => by
      rw [← x.extract_image_block hk]
      simp [ofImage]
  obtain ⟨⟩ := x
  simp (disch := decide) only [ofImage, image, extract_append_low, extract_append_high,
    Nat.reduceSub, BitVec.extractLsb'_eq_self, EXT2Inode.mk.injEq, true_and, and_true]
  exact hblock

/-- Entry `k` of `i_block`. -/
def EXT2Inode.block (x : EXT2Inode) (k : ℕ) : ℕ := (x.i_block[k]?.getD 0).toNat

/-- `inode.i_block[k] = b`. -/
def EXT2Inode.setBlock (x : EXT2Inode) (k b : ℕ) : EXT2Inode :=
  { x with i_block := x.i_block.setIfInBounds k (BitVec.ofNat 32 b) }

theorem EXT2Inode.block_setBlock (x : EXT2Inode) {k b j : ℕ} (hk : k < 15) (hb : b < 2 ^ 32) :
    (x.setBlock k b).block j = if j = k then b else x.block j := by
  unfold block setBlock
  rw [Vector.getElem?_setIfInBounds]
  by_cases h : j = k
  · subst h
    rw [if_pos rfl, if_pos hk, if_pos rfl, Option.getD_some, BitVec.toNat_ofNat,
      Nat.mod_eq_of_lt hb]
  · rw [if_neg (Ne.symm h), if_neg h]

/-! ## Directory entries

An entry is a view of a block buffer at a byte offset: `struct
EXT2DirectoryEntry` followed by its name. -/

section Entry

variable {w : ℕ}

def entInode (buf : BitVec w) (offset : ℕ) : ℕ := (buf.extractLsb' (8 * offset) 32).toNat
def entRecLen (buf : BitVec w) (offset : ℕ) : ℕ := (buf.extractLsb' (8 * (offset + 4)) 16).toNat
def entNameLen (buf : BitVec w) (offset : ℕ) : ℕ := (buf.extractLsb' (8 * (offset + 6)) 8).toNat
def entFileType (buf : BitVec w) (offset : ℕ) : BitVec 8 := buf.extractLsb' (8 * (offset + 7)) 8

/-- The `len` bytes from `get_entry_name` on. -/
def getEntryName (buf : BitVec w) (offset len : ℕ) : List (BitVec 8) :=
  (List.range len).map fun k => byte buf (offset + entryHeader + k)

def setEntInode (buf : BitVec w) (offset inode : ℕ) : BitVec w :=
  splice buf (8 * offset) (BitVec.ofNat 32 inode)

def setEntRecLen (buf : BitVec w) (offset recLen : ℕ) : BitVec w :=
  splice buf (8 * (offset + 4)) (BitVec.ofNat 16 recLen)

def setEntNameLen (buf : BitVec w) (offset nameLen : ℕ) : BitVec w :=
  splice buf (8 * (offset + 6)) (BitVec.ofNat 8 nameLen)

def setEntFileType (buf : BitVec w) (offset : ℕ) (fileType : BitVec 8) : BitVec w :=
  splice buf (8 * (offset + 7)) fileType

/-- `memcpy(get_entry_name(ent), name, name_len)`. -/
def setEntryName (buf : BitVec w) (offset : ℕ) (name : List (BitVec 8)) : BitVec w :=
  copyBytes buf (offset + entryHeader) (fun k => name[k]?.getD 0) name.length

end Entry

def getEntryRecordLen (nameLen : ℕ) : ℕ := (entryHeader + nameLen + 3) / 4 * 4

/-- A name as the requests pass it: a pointer to bytes and a `uint8_t` length. -/
structure EntryName where
  bytes : List (BitVec 8)
  bound : bytes.length ≤ 255
deriving DecidableEq

def EntryName.len (name : EntryName) : ℕ := name.bytes.length

/-- The name `"."`. -/
def EntryName.dot : EntryName := ⟨[0x2E], by decide⟩
/-- The name `".."`. -/
def EntryName.dotdot : EntryName := ⟨[0x2E, 0x2E], by decide⟩

/-! ## Bits of a bitmap block -/

section Bits

variable {w : ℕ}

def testBit (buf : BitVec w) (bit : ℕ) : BitVec 8 := byte buf (bit / 8) &&& 1#8 <<< (bit % 8)

def setBit (buf : BitVec w) (bit : ℕ) : BitVec w :=
  splice buf (8 * (bit / 8)) (byte buf (bit / 8) ||| 1#8 <<< (bit % 8))

def clearBit (buf : BitVec w) (bit : ℕ) : BitVec w :=
  splice buf (8 * (bit / 8)) (byte buf (bit / 8) &&& ~~~(1#8 <<< (bit % 8)))

theorem getLsbD_one_shiftLeft (k j : ℕ) (hj : j < 8) : (1#8 <<< k).getLsbD j = decide (j = k) := by
  simp only [BitVec.getLsbD_shiftLeft, hj, decide_true, Bool.true_and, BitVec.getLsbD_one]
  by_cases h : j < k
  · simp [h, Nat.ne_of_lt h]
  · simp [h]; omega

theorem testBit_eq_zero (buf : BitVec w) (bit : ℕ) :
    testBit buf bit = 0 ↔ buf.getLsbD bit = false := by
  have hm : bit % 8 < 8 := Nat.mod_lt _ (by decide)
  have hs : 8 * (bit / 8) + bit % 8 = bit := Nat.div_add_mod bit 8
  constructor
  · intro h
    have hb := congrArg (fun b => b.getLsbD (bit % 8)) h
    simp only [testBit, byte, BitVec.getLsbD_and, BitVec.getLsbD_extractLsb', hm, decide_true,
      Bool.true_and, hs, getLsbD_one_shiftLeft _ _ hm, Bool.and_true] at hb
    simpa using hb
  · intro h
    apply BitVec.eq_of_getLsbD_eq
    intro j hj
    simp only [testBit, byte, BitVec.getLsbD_and, BitVec.getLsbD_extractLsb', hj, decide_true,
      Bool.true_and, getLsbD_one_shiftLeft _ _ hj]
    by_cases hjm : j = bit % 8
    · subst hjm
      simp [hs, h]
    · simp [hjm]

theorem getLsbD_setBit (buf : BitVec w) {bit : ℕ} (h : 8 * (bit / 8) + 8 ≤ w) (i : ℕ) :
    (setBit buf bit).getLsbD i = (buf.getLsbD i || decide (i = bit)) := by
  rw [setBit, getLsbD_splice]
  by_cases hin : 8 * (bit / 8) ≤ i ∧ i < 8 * (bit / 8) + 8
  · have hj : i - 8 * (bit / 8) < 8 := by omega
    have hi : 8 * (bit / 8) + (i - 8 * (bit / 8)) = i := by omega
    have hiff : (i - 8 * (bit / 8) = bit % 8) ↔ i = bit := by omega
    rw [if_pos hin]
    simp only [byte, BitVec.getLsbD_or, BitVec.getLsbD_extractLsb', hj, hi, decide_true,
      Bool.true_and, getLsbD_one_shiftLeft _ _ hj, hiff, show i < w by omega]
  · rw [if_neg hin]
    have hne : i ≠ bit := by omega
    by_cases hw : i < w
    · simp [hw, hne]
    · rw [BitVec.getLsbD_of_ge buf i (by omega)]
      simp [hw, hne]

theorem getLsbD_clearBit (buf : BitVec w) {bit : ℕ} (h : 8 * (bit / 8) + 8 ≤ w) (i : ℕ) :
    (clearBit buf bit).getLsbD i = (buf.getLsbD i && !decide (i = bit)) := by
  rw [clearBit, getLsbD_splice]
  by_cases hin : 8 * (bit / 8) ≤ i ∧ i < 8 * (bit / 8) + 8
  · have hj : i - 8 * (bit / 8) < 8 := by omega
    have hi : 8 * (bit / 8) + (i - 8 * (bit / 8)) = i := by omega
    have hiff : (i - 8 * (bit / 8) = bit % 8) ↔ i = bit := by omega
    rw [if_pos hin]
    simp only [byte, BitVec.getLsbD_and, BitVec.getLsbD_extractLsb', hj, hi, decide_true,
      Bool.true_and, BitVec.getLsbD_not, getLsbD_one_shiftLeft _ _ hj, hiff, show i < w by omega]
  · rw [if_neg hin]
    have hne : i ≠ bit := by omega
    by_cases hw : i < w
    · simp [hw, hne]
    · rw [BitVec.getLsbD_of_ge buf i (by omega)]
      simp [hw]

end Bits

end RendangOS.Ext2
