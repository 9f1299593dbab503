import RendangOS.Ext2.State

/-!
# Allocation

`allocate_block`, `deallocate_single_block`, `allocate_node` and
`deallocate_node`. Each of them ends by storing the superblock and the first
group descriptor through one uninitialised buffer (`syncMetadata`).
-/

namespace RendangOS.Ext2

open Image

/-- The four statements with `meta_buf` that close every allocation and release. -/
def syncMetadata (env : Env) (s : Fs) : Fs :=
  let metaBuf := splice (env.junk s.log.length) 0 s.superblock.image
  let s := writeBlocks s metaBuf superblockLba
  let metaBuf := splice metaBuf 0 s.group0.image
  writeBlocks s metaBuf bgdtLba

/-- The scan of a bitmap: the first clear bit below `n`. -/
def firstClear (bitmap : Block) (n : ℕ) : Option ℕ :=
  (List.range n).find? fun i => testBit bitmap i == 0

/-- The branch of `allocate_block` that takes block `i`. -/
def takeBlock (env : Env) (s : Fs) (i : ℕ) : Fs :=
  let bitmap := readBlocks s blockBitmapLba
  let s := writeBlocks s (setBit bitmap i) blockBitmapLba
  let s := { s with superblock :=
    { s.superblock with s_free_blocks_count := s.superblock.s_free_blocks_count - 1 } }
  let s := s.setGroup0
    { s.group0 with bg_free_blocks_count := s.group0.bg_free_blocks_count - 1 }
  syncMetadata env s

def allocateBlock (env : Env) (s : Fs) : ℕ × Fs :=
  if s.group0.bg_free_blocks_count = 0 then (0, s)
  else
    match firstClear (readBlocks s blockBitmapLba) blocksPerGroup with
    | some i => (i, takeBlock env s i)
    | none => (0, s)

def deallocateSingleBlock (env : Env) (s : Fs) (blockNum : ℕ) : Fs :=
  if blockNum = 0 then s
  else
    let bitmap := readBlocks s blockBitmapLba
    if testBit (frame env s bitmap) blockNum = 0 then s
    else
      let s := writeBlocks s (clearBit bitmap blockNum) blockBitmapLba
      let s := { s with superblock :=
        { s.superblock with s_free_blocks_count := s.superblock.s_free_blocks_count + 1 } }
      let s := s.setGroup0
        { s.group0 with bg_free_blocks_count := s.group0.bg_free_blocks_count + 1 }
      syncMetadata env s

/-- The branch of `allocate_node` that takes bit `i` of the inode bitmap. -/
def takeNode (env : Env) (s : Fs) (i : ℕ) : Fs :=
  let bitmap := readBlocks s inodeBitmapLba
  let s := writeBlocks s (setBit bitmap i) inodeBitmapLba
  let s := { s with superblock :=
    { s.superblock with s_free_inodes_count := s.superblock.s_free_inodes_count - 1 } }
  let s := s.setGroup0
    { s.group0 with bg_free_inodes_count := s.group0.bg_free_inodes_count - 1 }
  syncMetadata env s

def allocateNode (env : Env) (s : Fs) : ℕ × Fs :=
  if s.initialized = false then (0, s)
  else if s.group0.bg_free_inodes_count = 0 then (0, s)
  else
    match firstClear (readBlocks s inodeBitmapLba) inodesPerGroup with
    | some i => (i + 1, takeNode env s i)
    | none => (0, s)

/-- Word `k` of a block read as a table of block numbers. -/
def tableEntry (buf : Block) (k : ℕ) : ℕ := (buf.extractLsb' (32 * k) 32).toNat

/-- A release loop: `deallocate_single_block` on each non-zero pointer. -/
def deallocatePointers (env : Env) (s : Fs) (blocks : List ℕ) : Fs :=
  blocks.foldl (fun s b => if b ≠ 0 then deallocateSingleBlock env s b else s) s

/-- The last part of `deallocate_node`: the inode bitmap and the counters. -/
def releaseNode (env : Env) (s : Fs) (inode : ℕ) : Fs :=
  let bitmap := readBlocks s inodeBitmapLba
  let s := writeBlocks s (clearBit bitmap (inode - 1)) inodeBitmapLba
  let s := { s with superblock :=
    { s.superblock with s_free_inodes_count := s.superblock.s_free_inodes_count + 1 } }
  let s := s.setGroup0
    { s.group0 with bg_free_inodes_count := s.group0.bg_free_inodes_count + 1 }
  syncMetadata env s

def deallocateNode (env : Env) (s : Fs) (inode : ℕ) : Fs :=
  if s.initialized = false ∨ inode = 0 then s
  else
    match readInode env s inode with
    | none => s
    | some nodeData =>
      let s := deallocatePointers env s ((List.range 12).map nodeData.block)
      let s :=
        if nodeData.block 12 ≠ 0 then
          let indirectTable := readBlocks s (nodeData.block 12)
          let s := deallocatePointers env s ((List.range 128).map (tableEntry indirectTable))
          deallocateSingleBlock env s (nodeData.block 12)
        else s
      let s := writeInode env s inode EXT2Inode.zero
      releaseNode env s inode

end RendangOS.Ext2
