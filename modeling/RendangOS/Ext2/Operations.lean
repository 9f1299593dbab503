import RendangOS.Ext2.Directory
import Mathlib.Logic.Relation

/-!
# The file system interface

`create_ext2`, the five operations behind the system calls, and the runs of
write and delete calls from a fresh file system.
-/

namespace RendangOS.Ext2

open Image

/-! ## `create_ext2` -/

/-- `fs_signature`. -/
def fsSignature : Block :=
  let text : List (BitVec 8) :=
    [0x52, 0x45, 0x4E, 0x44, 0x41, 0x4E, 0x47, 0x4F, 0x53, 0x20, 0x46, 0x53, 0x20, 0x76, 0x31, 0x2E]
  let x := copyBytes (0 : Block) 0 (fun k => text[k]?.getD 0) 16
  splice (splice x (8 * 510) 0x4F#8) (8 * 511) 0x6B#8

def isEmptyStorage (s : Fs) : Bool := readBlocks s bootSector != fsSignature

def initialSuperblock : EXT2Superblock :=
  { EXT2Superblock.ofImage 0 with
    s_inodes_count := BitVec.ofNat 32 totalInodes
    s_blocks_count := BitVec.ofNat 32 totalBlocks
    s_free_blocks_count := BitVec.ofNat 32 (totalBlocks - initialUsedBlocks)
    s_free_inodes_count := BitVec.ofNat 32 (totalInodes - initialUsedInodes)
    s_first_data_block := BitVec.ofNat 32 (bgdtLba + 1)
    s_log_block_size := 0
    s_inodes_per_group := BitVec.ofNat 32 inodesPerGroup
    s_blocks_per_group := BitVec.ofNat 32 blocksPerGroup
    s_magic := ext2SuperMagic
    s_first_ino := BitVec.ofNat 32 ext2GoodOldFirstIno
    s_inode_size := BitVec.ofNat 16 inodeSize }

def initialGroup0 : EXT2BlockGroupDescriptor :=
  { EXT2BlockGroupDescriptor.ofImage 0 with
    bg_block_bitmap := BitVec.ofNat 32 blockBitmapLba
    bg_inode_bitmap := BitVec.ofNat 32 inodeBitmapLba
    bg_inode_table := BitVec.ofNat 32 inodeTableLba
    bg_free_blocks_count := BitVec.ofNat 16 (blocksPerGroup - initialUsedBlocks)
    bg_free_inodes_count := BitVec.ofNat 16 (inodesPerGroup - initialUsedInodes)
    bg_used_dirs_count := 1 }

/-- The `"."` and `".."` entries of a new directory. -/
def dotEntries (inode parent : ℕ) : Block :=
  let buf := writeEntry 0 0 inode (getEntryRecordLen 1) .dot ext2FtDir
  writeEntry buf (getEntryRecordLen 1) parent (blockSize - getEntryRecordLen 1) .dotdot ext2FtDir

def rootInode : EXT2Inode :=
  { EXT2Inode.zero.setBlock 0 rootDirBlockLba with
    i_mode := ext2SIfdir ||| 0o755
    i_size := BitVec.ofNat 32 blockSize
    i_links_count := 2
    i_blocks := BitVec.ofNat 32 (blockSize / 512) }

/-- `for (i = 0; i < n; i++) set_bit(buffer, i)` on a zeroed buffer. -/
def lowBits (n : ℕ) : Block := (List.range n).foldl setBit 0

def createExt2 (env : Env) (s : Fs) : Fs :=
  let s := writeBlocks s fsSignature bootSector
  let s := { s with superblock := initialSuperblock }
  let s := writeBlocks s (splice 0 0 s.superblock.image) superblockLba
  let s := { s with bgdt := Vector.replicate 8 (EXT2BlockGroupDescriptor.ofImage 0) }
  let s := s.setGroup0 initialGroup0
  let s := writeBlocks s (splice 0 0 s.group0.image) bgdtLba
  let s := writeBlocks s (lowBits (rootDirBlockLba + 1)) blockBitmapLba
  let s := writeBlocks s (lowBits initialUsedInodes) inodeBitmapLba
  let s := (List.range inodesTableBlockCount).foldl
    (fun s i => writeBlocks s 0 (inodeTableLba + i)) s
  let s := writeInode env s rootInodeNo rootInode
  let s := writeBlocks s (dotEntries rootInodeNo rootInodeNo) rootDirBlockLba
  { s with initialized := true }

/-! ## Requests -/

/-- `struct EXT2DriverRequest`. A pointer field is given by the bytes it points
to; `delete` and `stat` also look at whether `name` is `NULL`. -/
structure Request where
  buf : ℕ → BitVec 8
  name : EntryName
  name_null : Bool
  parent_inode : BitVec 32
  buffer_size : BitVec 32
  is_directory : Bool

/-- `request.parent_inode`. -/
def Request.parent (r : Request) : ℕ := r.parent_inode.toNat
/-- `request.buffer_size`. -/
def Request.size (r : Request) : ℕ := r.buffer_size.toNat

/-! ## `read_directory`, `read` and `stat` -/

/-- `memcpy(out + start, buf, count)`. -/
def copyOut (out : ℕ → BitVec 8) (start : ℕ) (buf : Block) (count : ℕ) : ℕ → BitVec 8 :=
  fun k => if start ≤ k ∧ k < start + count then byte buf (k - start) else out k

/-- The copy loops of `read` and `read_directory` over a list of block pointers:
the number of bytes done so far and the memory at `out`. -/
def copyBlocks (s : Fs) (total : ℕ) : List ℕ → ℕ × (ℕ → BitVec 8) → ℕ × (ℕ → BitVec 8)
  | [], acc => acc
  | b :: bs, (done, out) =>
      if done < total ∧ b ≠ 0 then
        let chunk := if total - done < blockSize then total - done else blockSize
        copyBlocks s total bs (done + chunk, copyOut out done (readBlocks s b) chunk)
      else (done, out)

def readDirectory (env : Env) (s : Fs) (r : Request) : ℤ × (ℕ → BitVec 8) :=
  if s.initialized = false then (-1, r.buf)
  else
    match readInode env s r.parent with
    | none => (3, r.buf)
    | some dirInode =>
        if dirInode.isDir = false then (1, r.buf)
        else if dirInode.block 0 = 0 then (0, r.buf)
        else (0, (copyBlocks s r.size ((List.range 12).map dirInode.block) (0, r.buf)).2)

def read (env : Env) (s : Fs) (r : Request) : ℤ × (ℕ → BitVec 8) :=
  if s.initialized = false then (-1, r.buf)
  else if r.parent = 0 then (4, r.buf)
  else
    let fileInodeNum := findEntryInDir env s r.parent r.name
    if fileInodeNum = 0 then (3, r.buf)
    else
      match readInode env s fileInodeNum with
      | none => (-1, r.buf)
      | some fileInode =>
          if fileInode.isDir then (1, r.buf)
          else
            let bytesToRead :=
              if r.size < fileInode.i_size.toNat then r.size else fileInode.i_size.toNat
            let acc := copyBlocks s bytesToRead ((List.range 12).map fileInode.block) (0, r.buf)
            let acc :=
              if acc.1 < bytesToRead ∧ fileInode.block 12 ≠ 0 then
                let indirectTable := readBlocks s (fileInode.block 12)
                copyBlocks s bytesToRead ((List.range 128).map (tableEntry indirectTable)) acc
              else acc
            (0, acc.2)

/-- The return code of `stat` with what it stores in `size_out` and `is_dir_out`. -/
def stat (env : Env) (s : Fs) (name : EntryName) (nameNull : Bool) (parentInode : ℕ) :
    ℤ × Option (BitVec 32 × Bool) :=
  if s.initialized = false then (-1, none)
  else if parentInode = 0 ∨ nameNull = true ∨ name.len = 0 then (-1, none)
  else
    let inodeNum := findEntryInDir env s parentInode name
    if inodeNum = 0 then (1, none)
    else
      match readInode env s inodeNum with
      | none => (-1, none)
      | some inode => (0, some (inode.i_size, inode.isDir))

/-! ## `write` -/

/-- `blocks_needed`, in 32-bit arithmetic. -/
def blocksNeeded (r : Request) : ℕ := (r.size + blockSize - 1) % 2 ^ 32 / blockSize

/-- `copy_sz` for block `i` of the file. -/
def copySize (r : Request) (i : ℕ) : ℕ :=
  let copySz := if i = blocksNeeded r - 1 then r.size % blockSize else blockSize
  if copySz = 0 then blockSize else copySz

/-- The zeroed buffer after `memcpy(data.buf, src + i * BLOCK_SIZE, copy_sz)`. -/
def dataBlock (r : Request) (i : ℕ) : Block :=
  copyBytes 0 0 (fun k => r.buf (i * blockSize + k)) (copySize r i)

/-- `i_blocks += BLOCK_SIZE / 512`. -/
def EXT2Inode.countBlock (x : EXT2Inode) : EXT2Inode :=
  { x with i_blocks := x.i_blocks + BitVec.ofNat 32 (blockSize / 512) }

/-- The loop that fills `i_block[i]` for the indices `i` still to do. -/
def writeDirect (env : Env) (r : Request) : List ℕ → EXT2Inode → Fs → EXT2Inode × Fs
  | [], x, s => (x, s)
  | i :: is, x, s =>
      let a := allocateBlock env s
      if a.1 = 0 then (x, a.2)
      else
        writeDirect env r is (x.setBlock i a.1).countBlock (writeBlocks a.2 (dataBlock r i) a.1)

/-- The loop that fills entry `i - 12` of the indirect table. -/
def writeIndirect (env : Env) (r : Request) :
    List ℕ → EXT2Inode → Block → Fs → EXT2Inode × Block × Fs
  | [], x, table, s => (x, table, s)
  | i :: is, x, table, s =>
      let a := allocateBlock env s
      if a.1 = 0 then (x, table, a.2)
      else
        writeIndirect env r is x.countBlock
          (splice table (32 * (i - 12)) (BitVec.ofNat 32 a.1))
          (writeBlocks a.2 (dataBlock r i) a.1)

/-- The file branch: direct blocks, then the single indirect block. -/
def writeFile (env : Env) (r : Request) (x : EXT2Inode) (s : Fs) : EXT2Inode × Fs :=
  let d := writeDirect env r (List.range (min (blocksNeeded r) 12)) x s
  if blocksNeeded r > 12 then
    let a := allocateBlock env d.2
    if a.1 = 0 then (d.1, a.2)
    else
      let t := writeIndirect env r (List.range' 12 (min (blocksNeeded r - 12) 128))
        (d.1.setBlock 12 a.1).countBlock 0 a.2
      (t.1, writeBlocks t.2.2 t.2.1 a.1)
  else d

/-- The directory branch: one block with `"."` and `".."`. -/
def writeDir (env : Env) (r : Request) (newInodeNum : ℕ) (x : EXT2Inode) (s : Fs) :
    EXT2Inode × Fs :=
  let a := allocateBlock env s
  if a.1 = 0 then (x, a.2)
  else
    ({ x.setBlock 0 a.1 with
        i_blocks := BitVec.ofNat 32 (blockSize / 512)
        i_size := BitVec.ofNat 32 blockSize },
      writeBlocks a.2 (dotEntries newInodeNum r.parent) a.1)

/-- `new_inode` before any block is allocated. -/
def freshInode (r : Request) : EXT2Inode :=
  if r.is_directory then
    { EXT2Inode.zero with i_mode := ext2SIfdir ||| 0o755, i_links_count := 2 }
  else
    { EXT2Inode.zero with
      i_mode := ext2SIfreg ||| 0o644, i_links_count := 1, i_size := r.buffer_size }

/-- The two branches that fill the new inode. -/
def writeContent (env : Env) (r : Request) (newInodeNum : ℕ) (s : Fs) : EXT2Inode × Fs :=
  if r.is_directory = false ∧ 0 < r.size then writeFile env r (freshInode r) s
  else if r.is_directory then writeDir env r newInodeNum (freshInode r) s
  else (freshInode r, s)

def write (env : Env) (s : Fs) (r : Request) : ℤ × Fs :=
  if s.initialized = false then (-1, s)
  else if r.parent = 0 then (2, s)
  else if findEntryInDir env s r.parent r.name ≠ 0 then (1, s)
  else
    let n := allocateNode env s
    if n.1 = 0 then (-1, n.2)
    else
      let c := writeContent env r n.1 n.2
      let s := writeInode env c.2 n.1 c.1
      let fileType := if r.is_directory then ext2FtDir else ext2FtRegFile
      let a := addEntryToDir env s r.parent n.1 r.name fileType
      if a.1 ≠ 0 then (-1, a.2) else (0, a.2)

/-! ## `delete` -/

def delete (env : Env) (s : Fs) (r : Request) : ℤ × Fs :=
  if s.initialized = false then (-1, s)
  else if r.parent = 0 then (3, s)
  else if r.name_null = true ∨ r.name.len = 0 then (-1, s)
  else
    let targetInodeNum := findEntryInDir env s r.parent r.name
    if targetInodeNum = 0 then (1, s)
    else
      match readInode env s targetInodeNum with
      | none => (-1, s)
      | some targetInode =>
          if r.is_directory = true ∧ targetInode.isDir = false then (1, s)
          else if r.is_directory = true ∧ isDirectoryEmpty env s targetInodeNum = false then (2, s)
          else if r.is_directory = false ∧ targetInode.isDir = true then (1, s)
          else
            let a := removeEntryFromDir env s r.parent r.name
            if a.1 ≠ 0 then (-1, a.2)
            else (0, deallocateNode env a.2 targetInodeNum)

/-! ## Runs -/

/-- The calls that change the file system. -/
inductive Call where
  | write (r : Request)
  | delete (r : Request)

def Call.request : Call → Request
  | .write r => r
  | .delete r => r

def Call.run (env : Env) (s : Fs) : Call → ℤ × Fs
  | .write r => Ext2.write env s r
  | .delete r => Ext2.delete env s r

/-- One call that satisfies `ok`, in any environment. -/
def Step (ok : Fs → Call → Prop) (s s' : Fs) : Prop :=
  ∃ env c, ok s c ∧ (c.run env s).2 = s'

/-- The states that calls satisfying `ok` reach from a fresh file system. -/
def Reachable (ok : Fs → Call → Prop) (s : Fs) : Prop :=
  ∃ env s₀, Relation.ReflTransGen (Step ok) (createExt2 env s₀) s

end RendangOS.Ext2
