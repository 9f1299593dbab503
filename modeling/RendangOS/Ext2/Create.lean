import RendangOS.Ext2.Operations
import RendangOS.Ext2.DirSpec

/-!
# A fresh file system

The volume `create_ext2` leaves, whatever the disk held before: 22 blocks and
11 inodes are in use, the root directory is inode 2 with one block that holds
`"."` and `".."`, and every other inode is zero.
-/

namespace RendangOS.Ext2

open Image RecordChain

/-- The first `n` bits are set. -/
theorem getLsbD_lowBits {n : ℕ} (h : n ≤ 4096) (i : ℕ) :
    (lowBits n).getLsbD i = decide (i < n) := by
  induction n with
  | zero => simp [lowBits]
  | succ n ih =>
      have hstep : lowBits (n + 1) = setBit (lowBits n) n := by
        unfold lowBits
        rw [List.range_succ, List.foldl_append]
        rfl
      rw [hstep, getLsbD_setBit _ (by omega), ih (by omega)]
      by_cases hi : i = n
      · simp [hi]
      · simp [hi, show i < n + 1 ↔ i < n by omega]

/-- A zeroed slot of the inode table. -/
theorem ofImage_zero : EXT2Inode.ofImage 0 = EXT2Inode.zero := by
  decide +kernel

/-- The volume after `create_ext2` on a disk that held `disk`. -/
def freshVolume (disk : ℕ → Block) : Volume where
  superblock := initialSuperblock
  bgdt := (Vector.replicate 8 (EXT2BlockGroupDescriptor.ofImage 0)).set 0 initialGroup0 group0_lt
  initialized := true
  boot := fsSignature
  superblockCopy := initialSuperblock
  group0Copy := initialGroup0
  blockUsed := fun b => decide (b < 22)
  inodeUsed := fun n => decide (1 ≤ n ∧ n ≤ 11)
  inode := Function.update (fun _ => EXT2Inode.zero) 2 rootInode
  data := fun b => if b < 21 then 0 else if b = 21 then dotEntries 2 2 else disk b

theorem group0_fresh (disk : ℕ → Block) : (freshVolume disk).group0 = initialGroup0 :=
  Vector.getElem_set_self ..

theorem tables_fresh (disk : ℕ → Block) : (freshVolume disk).tables = groupTables := by
  change ((Vector.replicate 8 (EXT2BlockGroupDescriptor.ofImage 0)).set 0 initialGroup0).map
    (fun g => g.bg_inode_table) = groupTables
  decide +kernel

/-- The loop that zeroes the inode table. -/
theorem disk_zeroTable (s : Fs) (n : ℕ) (h : n ≤ 16) (l : ℕ) :
    ((List.range n).foldl (fun s i => writeBlocks s 0 (inodeTableLba + i)) s).disk l =
      if 5 ≤ l ∧ l < 5 + n then 0 else s.disk l := by
  induction n with
  | zero =>
      rw [if_neg (by omega)]
      rfl
  | succ n ih =>
      rw [List.range_succ, List.foldl_append]
      change (writeBlocks _ 0 (5 + n)).disk l = _
      rw [disk_writeBlocks _ _ (by omega), ih (by omega)]
      split_ifs <;> first | rfl | omega

/-- The six writes of `create_ext2` in front of the inode table. -/
def formatMeta (s : Fs) : Fs :=
  let s := writeBlocks s fsSignature bootSector
  let s := { s with superblock := initialSuperblock }
  let s := writeBlocks s (splice 0 0 s.superblock.image) superblockLba
  let s := { s with bgdt := Vector.replicate 8 (EXT2BlockGroupDescriptor.ofImage 0) }
  let s := s.setGroup0 initialGroup0
  let s := writeBlocks s (splice 0 0 s.group0.image) bgdtLba
  let s := writeBlocks s (lowBits (rootDirBlockLba + 1)) blockBitmapLba
  writeBlocks s (lowBits initialUsedInodes) inodeBitmapLba

theorem disk_formatMeta (s : Fs) (l : ℕ) : (formatMeta s).disk l =
    if l = 4 then lowBits 11 else if l = 3 then lowBits 22
    else if l = 2 then splice 0 0 initialGroup0.image
    else if l = 1 then splice 0 0 initialSuperblock.image
    else if l = 0 then fsSignature else s.disk l := rfl

/-- The volume with its inode table zeroed. -/
def zeroedVolume (s : Fs) : Volume :=
  { freshVolume s.disk with
    initialized := s.initialized
    inode := fun _ => EXT2Inode.zero
    data := fun b => if b < 21 then 0 else s.disk b }

theorem view_zeroTable (s : Fs) :
    view ((List.range inodesTableBlockCount).foldl
      (fun s i => writeBlocks s 0 (inodeTableLba + i)) (formatMeta s)) = zeroedVolume s := by
  generalize hs : (List.range inodesTableBlockCount).foldl
    (fun s i => writeBlocks s 0 (inodeTableLba + i)) (formatMeta s) = t
  have hdisk : ∀ l, t.disk l = if 5 ≤ l ∧ l < 21 then 0 else (formatMeta s).disk l := fun l => by
    rw [← hs]
    exact disk_zeroTable (formatMeta s) 16 le_rfl l
  have hmem : t.superblock = initialSuperblock ∧
      t.bgdt = (Vector.replicate 8 (EXT2BlockGroupDescriptor.ofImage 0)).set 0 initialGroup0 ∧
      t.initialized = s.initialized := by
    rw [← hs]
    exact ⟨rfl, rfl, rfl⟩
  have hmeta : ∀ l, ¬ (5 ≤ l ∧ l < 21) → t.disk l = (formatMeta s).disk l := fun l hl => by
    rw [hdisk, if_neg hl]
  ext1
  · exact hmem.1
  · exact hmem.2.1
  · exact hmem.2.2
  · exact hmeta 0 (by omega)
  · change EXT2Superblock.ofImage ((t.disk 1).extractLsb' 0 1632) = initialSuperblock
    rw [hmeta 1 (by omega)]
    change EXT2Superblock.ofImage ((splice 0 0 initialSuperblock.image).extractLsb' 0 1632) = _
    rw [extract_splice _ _ (by decide), EXT2Superblock.ofImage_image]
  · change EXT2BlockGroupDescriptor.ofImage ((t.disk 2).extractLsb' 0 256) = initialGroup0
    rw [hmeta 2 (by omega)]
    change EXT2BlockGroupDescriptor.ofImage
      ((splice 0 0 initialGroup0.image).extractLsb' 0 256) = _
    rw [extract_splice _ _ (by decide), EXT2BlockGroupDescriptor.ofImage_image]
  · funext b
    change (t.disk 3).getLsbD b = decide (b < 22)
    rw [hmeta 3 (by omega)]
    exact getLsbD_lowBits (by decide) b
  · funext n
    change (n != 0 && (t.disk 4).getLsbD (n - 1)) = decide (1 ≤ n ∧ n ≤ 11)
    rw [hmeta 4 (by omega)]
    change (n != 0 && (lowBits 11).getLsbD (n - 1)) = _
    rw [getLsbD_lowBits (by decide)]
    by_cases h0 : n = 0
    · simp [h0]
    · simp only [bne_iff_ne.mpr h0, Bool.true_and, decide_eq_decide]
      omega
  · funext n
    change inodeAt t n = EXT2Inode.zero
    by_cases hn : 1 ≤ n ∧ n ≤ 64
    · rw [inodeAt_slot t hn, hdisk, if_pos (tableBlock_bounds hn), ← ofImage_zero]
      refine congrArg EXT2Inode.ofImage (BitVec.eq_of_getLsbD_eq fun i _ => ?_)
      simp only [BitVec.getLsbD_extractLsb', BitVec.ofNat_eq_ofNat, BitVec.getLsbD_zero,
        Bool.and_false]
    · exact inodeAt_outside t hn
  · funext b
    change (if b < 21 then 0 else t.disk b) = if b < 21 then 0 else s.disk b
    by_cases hb : b < 21
    · rw [if_pos hb, if_pos hb]
    · rw [if_neg hb, if_neg hb, hmeta b (by omega), disk_formatMeta]
      simp only [show b ≠ 4 by omega, show b ≠ 3 by omega, show b ≠ 2 by omega,
        show b ≠ 1 by omega, show b ≠ 0 by omega, if_false]

theorem createExt2_eq (env : Env) (s : Fs) :
    createExt2 env s =
      { writeBlocks
          (writeInode env
            ((List.range inodesTableBlockCount).foldl
              (fun s i => writeBlocks s 0 (inodeTableLba + i)) (formatMeta s))
            rootInodeNo rootInode)
          (dotEntries rootInodeNo rootInodeNo) rootDirBlockLba with
        initialized := true } := rfl

theorem view_createExt2 (env : Env) (s : Fs) : view (createExt2 env s) = freshVolume s.disk := by
  have hzero := view_zeroTable s
  rw [createExt2_eq]
  generalize (List.range inodesTableBlockCount).foldl
    (fun s i => writeBlocks s 0 (inodeTableLba + i)) (formatMeta s) = t at hzero ⊢
  have haddr : Addresses env t rootInodeNo 2 :=
    addresses_slot (by rw [hzero]; exact congrArg _ (group0_fresh s.disk)) (by decide)
  change ({ view (writeBlocks _ _ 21) with initialized := true } : Volume) = _
  rw [view_writeBlocks _ _ (by decide) (by decide), haddr.writeInode, hzero]
  ext1
  case data =>
    funext b
    change Function.update (fun b => if b < 21 then 0 else s.disk b) 21 (dotEntries 2 2) b =
      if b < 21 then 0 else if b = 21 then dotEntries 2 2 else s.disk b
    by_cases hb : b = 21
    · subst hb
      rfl
    · rw [Function.update_of_ne hb, if_neg hb]
  all_goals rfl

/-! ## The two entries of a new directory -/

section DotEntries

variable {n p : ℕ}

theorem recAt_dotEntries (hn : n ≠ 0) (hn' : n < 2 ^ 32) :
    recAt (dotEntries n p) 0 = ⟨12, 12, some ⟨.dot, n, ext2FtDir⟩⟩ := by
  have hfirst : recAt (writeEntry (0 : Block) 0 n (getEntryRecordLen 1) .dot ext2FtDir) 0 =
      ⟨12, 12, some ⟨.dot, n, ext2FtDir⟩⟩ := by
    rw [recAt_writeEntry (by decide) hn' (by decide), if_neg hn]
    rfl
  rw [← hfirst]
  refine (recAt_congr ?_).symm
  rw [hfirst]
  exact (agree_writeEntry (Or.inl (show 8 * (0 + 12) ≤ 8 * 12 by decide))).symm

/-- A new directory block is tiled by `"."`, which names the directory, and
`".."`, which names the parent. -/
theorem tiles_dotEntries (hn : n ≠ 0) (hn' : n < 2 ^ 32) (hp : p ≠ 0) (hp' : p < 2 ^ 32) :
    Tiles (dotEntries n p) 0
      [⟨12, 12, some ⟨.dot, n, ext2FtDir⟩⟩, ⟨500, 12, some ⟨.dotdot, p, ext2FtDir⟩⟩] := by
  have hsecond : recAt (dotEntries n p) 12 = ⟨500, 12, some ⟨.dotdot, p, ext2FtDir⟩⟩ := by
    unfold dotEntries
    rw [show getEntryRecordLen 1 = 12 from rfl, recAt_writeEntry (by decide) hp' (by decide),
      if_neg hp]
    rfl
  exact ⟨recAt_dotEntries hn hn', le_rfl, (show 4 ∣ 12 by decide), hsecond,
    (show 12 ≤ 500 by decide), (show 4 ∣ 500 by decide), rfl⟩

theorem dotEntries_spec (hn : n ≠ 0) (hn' : n < 2 ^ 32) (hp : p ≠ 0) (hp' : p < 2 ^ 32) :
    Tiles (dotEntries n p) 0 (blockRecs (dotEntries n p)) ∧
      blockEntries (dotEntries n p) = [⟨.dot, n, ext2FtDir⟩, ⟨.dotdot, p, ext2FtDir⟩] := by
  have htiles := tiles_dotEntries hn hn' hp hp'
  rw [blockEntries, blockRecs_eq htiles]
  exact ⟨htiles, rfl⟩

end DotEntries

/-! ## The root directory -/

theorem EXT2Inode.zero_block (j : ℕ) : EXT2Inode.zero.block j = 0 := by
  unfold EXT2Inode.block EXT2Inode.zero
  simp only [Vector.getElem?_replicate]
  split <;> rfl

theorem rootInode_block (j : ℕ) : rootInode.block j = if j = 0 then 21 else 0 := by
  have hset := EXT2Inode.zero.block_setBlock (k := 0) (b := 21) (j := j) (by decide) (by decide)
  rwa [EXT2Inode.zero_block] at hset

theorem rootInode_dirBlocks : rootInode.dirBlocks = [21] := by
  decide +kernel

section Fresh

variable (disk : ℕ → Block)

theorem fresh_inode_root : (freshVolume disk).inode 2 = rootInode := rfl

theorem fresh_inode_ne {n : ℕ} (h : n ≠ 2) : (freshVolume disk).inode n = EXT2Inode.zero := by
  change Function.update (fun _ => EXT2Inode.zero) 2 rootInode n = EXT2Inode.zero
  rw [Function.update_of_ne h]

theorem fresh_dirBlocks : (freshVolume disk).dirBlocks 2 = [21] := rootInode_dirBlocks

theorem fresh_dirEntries : (freshVolume disk).dirEntries 2 =
    [⟨.dot, 2, ext2FtDir⟩, ⟨.dotdot, 2, ext2FtDir⟩] := by
  unfold Volume.dirEntries
  rw [fresh_dirBlocks, List.flatMap_singleton]
  exact (dotEntries_spec (by decide) (by decide) (by decide) (by decide)).2

theorem fresh_shape : (freshVolume disk).DirShape 2 where
  bounds := by
    rw [fresh_dirBlocks]
    simp
  tiled := by
    rw [fresh_dirBlocks]
    intro b hb
    rw [List.mem_singleton.mp hb]
    exact (dotEntries_spec (by decide) (by decide) (by decide) (by decide)).1

theorem fresh_blockCount : BlockCount (freshVolume disk) := by
  have h : (freshVolume disk).freeBlocks = 234 := by
    rw [Volume.freeBlocks, group0_fresh]
    rfl
  constructor
  · rw [h]
    exact (show 234 = Bitmap.clearCount (fun b => decide (b < 22)) 256 by decide +kernel)
  · rw [h]
    exact (show initialSuperblock.s_free_blocks_count.toNat = 234 + 1792 by decide +kernel)

theorem fresh_inodeCount : InodeCount (freshVolume disk) := by
  have h : (freshVolume disk).freeInodes = 53 := by
    rw [Volume.freeInodes, group0_fresh]
    rfl
  constructor
  · rw [h]
    exact (show 53 = Bitmap.clearCount (fun i => decide (1 ≤ i + 1 ∧ i + 1 ≤ 11)) 64 by
      decide +kernel)
  · rw [h]
    exact (show initialSuperblock.s_free_inodes_count.toNat = 53 + 448 by decide +kernel)

theorem fresh_synced : Synced (freshVolume disk) := ⟨rfl, (group0_fresh disk).symm⟩

theorem fresh_metaUsed : (freshVolume disk).MetaUsed := fun b hb =>
  decide_eq_true (show b < 22 by simp at hb; omega)

end Fresh

/-! ## A blank machine -/

/-- A machine whose memory is zero. -/
def Env.zero : Env := ⟨fun _ => 0, fun _ => 0, fun _ => 0⟩

/-- A machine that has not booted, with an erased disk. -/
def Fs.blank : Fs where
  superblock := EXT2Superblock.ofImage 0
  bgdt := Vector.replicate 8 (EXT2BlockGroupDescriptor.ofImage 0)
  initialized := false
  disk := fun _ => 0
  log := []

/-- The file system just created on a blank machine. -/
def freshFs : Fs := createExt2 .zero .blank

/-- A request about the file `name` with the given bytes. -/
def Request.file (parent : ℕ) (name : EntryName) (bytes : List (BitVec 8)) : Request where
  buf := fun k => bytes[k]?.getD 0
  name := name
  name_null := false
  parent_inode := BitVec.ofNat 32 parent
  buffer_size := BitVec.ofNat 32 bytes.length
  is_directory := false

/-- A request about the directory `name`. -/
def Request.folder (parent : ℕ) (name : EntryName) : Request :=
  { Request.file parent name [] with is_directory := true }

/-- The name of one letter. -/
def EntryName.letter (c : BitVec 8) : EntryName := ⟨[c], show 1 ≤ 255 by decide⟩

/-- A name of 255 bytes that starts with `k`. -/
def EntryName.long (k : ℕ) : EntryName :=
  ⟨BitVec.ofNat 8 k :: List.replicate 254 0x61, by rw [List.length_cons, List.length_replicate]⟩

/-- The state after a list of calls on the blank machine. -/
def runCalls : List Call → Fs → Fs
  | [], s => s
  | c :: cs, s => runCalls cs (c.run .zero s).2

theorem runCalls_cons (c : Call) (cs : List Call) (s : Fs) :
    runCalls (c :: cs) s = runCalls cs (c.run .zero s).2 := rfl

theorem runCalls_nil (s : Fs) : runCalls [] s = s := rfl

end RendangOS.Ext2
