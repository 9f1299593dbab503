import RendangOS.Ext2.Alloc

/-!
# Directory scans

`find_entry_in_dir`, `add_entry_to_dir`, `remove_entry_from_dir` and
`is_directory_empty`. Each scan of a block is a loop that advances by `rec_len`
and leaves when that is zero, so it makes at most `BLOCK_SIZE` turns; the first
argument of the scans counts the turns left.
-/

namespace RendangOS.Ext2

open Image

/-! ## `find_entry_in_dir` -/

def findScan (buf : Frame) (name : EntryName) : ℕ → ℕ → Option ℕ
  | 0, _ => none
  | fuel + 1, offset =>
      if offset < blockSize then
        if entRecLen buf offset = 0 then none
        else if entInode buf offset ≠ 0 ∧ entNameLen buf offset = name.len ∧
            getEntryName buf offset name.len = name.bytes then
          some (entInode buf offset)
        else findScan buf name fuel (offset + entRecLen buf offset)
      else none

def findEntryInDir (env : Env) (s : Fs) (dirInodeNum : ℕ) (name : EntryName) : ℕ :=
  match readInode env s dirInodeNum with
  | none => 0
  | some dirInode =>
      if dirInode.isDir = false then 0
      else
        (dirInode.dirBlocks.findSome? fun b =>
          findScan (frame env s (readBlocks s b)) name blockSize 0).getD 0

/-! ## `add_entry_to_dir` -/

/-- The entry written at `offset`, `rec_len` included. -/
def writeEntry (buf : Block) (offset inode recLen : ℕ) (name : EntryName)
    (fileType : BitVec 8) : Block :=
  let buf := setEntInode buf offset inode
  let buf := setEntNameLen buf offset name.len
  let buf := setEntFileType buf offset fileType
  let buf := setEntRecLen buf offset recLen
  setEntryName buf offset name.bytes

/-- The scan for slack behind a record. The frame is what the scan reads, the
block what `write_blocks` stores. -/
def addScan (view : Frame) (buf : Block) (inode : ℕ) (name : EntryName)
    (fileType : BitVec 8) : ℕ → ℕ → Option Block
  | 0, _ => none
  | fuel + 1, offset =>
      if offset < blockSize then
        let actualLen := getEntryRecordLen (entNameLen view offset)
        let recLen := entRecLen view offset
        if actualLen + getEntryRecordLen name.len ≤ recLen then
          let buf := setEntRecLen buf offset actualLen
          some (writeEntry buf (offset + actualLen) inode (recLen - actualLen) name fileType)
        else if recLen = 0 then none
        else addScan view buf inode name fileType fuel (offset + recLen)
      else none

/-- The first entry of a block that the directory has just been given. -/
def newDirBlock (inode : ℕ) (name : EntryName) (fileType : BitVec 8) : Block :=
  writeEntry 0 0 inode blockSize name fileType

/-- The parent inode after `i_block[i] = blk`. -/
def growInode (parent : EXT2Inode) (i blk : ℕ) : EXT2Inode :=
  let x := parent.setBlock i blk
  { x with
    i_blocks := x.i_blocks + BitVec.ofNat 32 (blockSize / 512)
    i_size := x.i_size + BitVec.ofNat 32 blockSize }

/-- The loop over `i_block[i]` for the indices `i` still to visit. -/
def addEntryLoop (env : Env) (parentInodeNum newInodeNum : ℕ) (name : EntryName)
    (fileType : BitVec 8) (parent : EXT2Inode) : List ℕ → Fs → ℤ × Fs
  | [], s => (-1, s)
  | i :: is, s =>
      if parent.block i = 0 then
        let r := allocateBlock env s
        if r.1 = 0 then (-1, r.2)
        else
          let s := writeInode env r.2 parentInodeNum (growInode parent i r.1)
          (0, writeBlocks s (newDirBlock newInodeNum name fileType) r.1)
      else
        let buf := readBlocks s (parent.block i)
        match addScan (frame env s buf) buf newInodeNum name fileType blockSize 0 with
        | some buf => (0, writeBlocks s buf (parent.block i))
        | none => addEntryLoop env parentInodeNum newInodeNum name fileType parent is s

def addEntryToDir (env : Env) (s : Fs) (parentInodeNum newInodeNum : ℕ) (name : EntryName)
    (fileType : BitVec 8) : ℤ × Fs :=
  match readInode env s parentInodeNum with
  | none => (-1, s)
  | some parent =>
      addEntryLoop env parentInodeNum newInodeNum name fileType parent (List.range 12) s

/-! ## `remove_entry_from_dir` -/

/-- The scan for a live entry of the given name; `prev` is the offset of the
record before the cursor. -/
def removeScan (view : Frame) (buf : Block) (name : EntryName) : ℕ → ℕ → Option ℕ → Option Block
  | 0, _, _ => none
  | fuel + 1, offset, prev =>
      if offset < blockSize then
        if entRecLen view offset = 0 then none
        else if entInode view offset ≠ 0 ∧ entNameLen view offset = name.len ∧
            getEntryName view offset name.len = name.bytes then
          match prev with
          | some p => some (setEntRecLen buf p (entRecLen view p + entRecLen view offset))
          | none => some (setEntInode buf offset 0)
        else removeScan view buf name fuel (offset + entRecLen view offset) (some offset)
      else none

def removeEntryFromDir (env : Env) (s : Fs) (parentInodeNum : ℕ) (name : EntryName) : ℤ × Fs :=
  match readInode env s parentInodeNum with
  | none => (-1, s)
  | some parent =>
      let hit := parent.dirBlocks.findSome? fun b =>
        let buf := readBlocks s b
        (removeScan (frame env s buf) buf name blockSize 0 none).map fun buf => (b, buf)
      match hit with
      | some (b, buf) => (0, writeBlocks s buf b)
      | none => (-1, s)

/-! ## `is_directory_empty` -/

/-- The offset behind the first two records. -/
def getDirFirstChildOffset (buf : Frame) : ℕ :=
  let dot := entRecLen buf 0
  if dot = 0 then 0
  else
    let dotdot := entRecLen buf dot
    if dotdot = 0 then 0 else dot + dotdot

/-- No live record from `offset` on. -/
def emptyScan (buf : Frame) : ℕ → ℕ → Bool
  | 0, _ => true
  | fuel + 1, offset =>
      if offset < blockSize then
        if entRecLen buf offset = 0 then true
        else if entInode buf offset ≠ 0 then false
        else emptyScan buf fuel (offset + entRecLen buf offset)
      else true

def isDirectoryEmpty (env : Env) (s : Fs) (inode : ℕ) : Bool :=
  match readInode env s inode with
  | none => true
  | some dirInode =>
      if dirInode.isDir = false then true
      else
        dirInode.dirBlocks.zipIdx.all fun (b, i) =>
          let buf := frame env s (readBlocks s b)
          emptyScan buf blockSize (if i = 0 then getDirFirstChildOffset buf else 0)

end RendangOS.Ext2
