import RendangOS.Ext2.Layout
import Mathlib.Data.Nat.Basic

/-!
# File system state and block I/O

The state is the three globals of `ext2.c`, the disk behind `disk.c`, and the
list of `write_blocks` calls made so far. `Env` holds what the code reads
without having written it: the bytes behind a block buffer on the stack, the
uninitialised `meta_buf`, and the memory behind the descriptor table. Its
values are indexed by the number of blocks written, so two reads at different
moments of a call may find different bytes.
-/

namespace RendangOS.Ext2

open Image

/-- A block buffer together with the 64 KiB that lie behind it in memory. A
`uint16_t` record length cannot carry a scan further. -/
abbrev Frame := BitVec (524288 + 4096)

structure Env where
  /-- The bytes behind a block buffer. -/
  stack : ℕ → BitVec 524288
  /-- The initial bytes of an uninitialised block buffer. -/
  junk : ℕ → Block
  /-- `bg_inode_table` read at an index past the descriptor table. -/
  bgdtOverrun : ℕ → BitVec 32

structure Fs where
  /-- `_ext2_superblock_state`. -/
  superblock : EXT2Superblock
  /-- `_ext2_bgdt_state.table`. -/
  bgdt : Vector EXT2BlockGroupDescriptor 8
  /-- `g_filesystem_initialized`. -/
  initialized : Bool
  disk : ℕ → Block
  /-- The blocks written so far, the last first. -/
  log : List (ℕ × Block)

/-- The 28 address bits an ATA PIO command carries. -/
def ataAddress (lba : ℕ) : ℕ := lba % 2 ^ 28

def readBlocks (s : Fs) (lba : ℕ) : Block := s.disk (ataAddress lba)

def writeBlocks (s : Fs) (buf : Block) (lba : ℕ) : Fs :=
  { s with
    disk := fun l => if l = ataAddress lba then buf else s.disk l
    log := (ataAddress lba, buf) :: s.log }

/-- A block buffer just read, as the scans see it. -/
def frame (env : Env) (s : Fs) (buf : Block) : Frame := env.stack s.log.length ++ buf

/-- There is a group 0. -/
theorem group0_lt : 0 < 8 := by decide

/-- `_ext2_bgdt_state.table[0]`. -/
def Fs.group0 (s : Fs) : EXT2BlockGroupDescriptor := getElem s.bgdt 0 group0_lt

def Fs.setGroup0 (s : Fs) (g : EXT2BlockGroupDescriptor) : Fs :=
  { s with bgdt := s.bgdt.set 0 g group0_lt }

/-! ## Inodes -/

def inodeToBgd (inode : ℕ) : ℕ := if inode = 0 then 0 else (inode - 1) / inodesPerGroup

def inodeToLocal (inode : ℕ) : ℕ := if inode = 0 then 0 else (inode - 1) % inodesPerGroup

/-- `_ext2_bgdt_state.table[bgd_idx].bg_inode_table`. -/
def tableLba (env : Env) (s : Fs) (bgdIdx : ℕ) : ℕ :=
  match s.bgdt[bgdIdx]? with
  | some g => g.bg_inode_table.toNat
  | none => (env.bgdtOverrun bgdIdx).toNat

/-- The block that `read_inode` and `write_inode` access for an inode number. -/
def inodeLba (env : Env) (s : Fs) (inodeNum : ℕ) : ℕ :=
  tableLba env s (inodeToBgd inodeNum) + inodeToLocal inodeNum / (blockSize / inodeSize)

/-- The byte offset of the inode inside that block. -/
def inodeOffset (inodeNum : ℕ) : ℕ :=
  inodeToLocal inodeNum % (blockSize / inodeSize) * inodeSize

def readInode (env : Env) (s : Fs) (inodeNum : ℕ) : Option EXT2Inode :=
  if inodeNum = 0 then none
  else
    let buf := readBlocks s (inodeLba env s inodeNum)
    some (EXT2Inode.ofImage (buf.extractLsb' (8 * inodeOffset inodeNum) 1024))

def writeInode (env : Env) (s : Fs) (inodeNum : ℕ) (inodeIn : EXT2Inode) : Fs :=
  if inodeNum = 0 then s
  else
    let lba := inodeLba env s inodeNum
    let buf := readBlocks s lba
    writeBlocks s (splice buf (8 * inodeOffset inodeNum) inodeIn.image) lba

/-- `inode.i_mode & EXT2_S_IFDIR`. -/
def EXT2Inode.isDir (x : EXT2Inode) : Bool := x.i_mode &&& ext2SIfdir != 0

/-- The direct blocks a directory scan visits: `i_block[0 .. 11]` up to the
first zero. -/
def EXT2Inode.dirBlocks (x : EXT2Inode) : List ℕ :=
  ((List.range 12).map x.block).takeWhile (· ≠ 0)

end RendangOS.Ext2
