import RendangOS.Ext2.Alloc
import Mathlib.Logic.Function.Basic
import Mathlib.Tactic.IntervalCases

/-!
# The volume

A volume is what the bytes of the disk mean: the descriptors in memory and
their copies on disk, the two bitmaps, the inodes of group 0 and the blocks
behind the inode table. `view` reads it off a file system state, and every
function of `ext2.c` that writes to disk is one operation on it. The
invariants of the file system are stated on volumes.
-/

namespace RendangOS.Ext2

open Image

@[ext] structure Volume where
  superblock : EXT2Superblock
  bgdt : Vector EXT2BlockGroupDescriptor 8
  initialized : Bool
  boot : Block
  /-- The superblock stored on disk. -/
  superblockCopy : EXT2Superblock
  /-- The first group descriptor stored on disk. -/
  group0Copy : EXT2BlockGroupDescriptor
  blockUsed : ℕ → Bool
  inodeUsed : ℕ → Bool
  inode : ℕ → EXT2Inode
  data : ℕ → Block

namespace Volume

def group0 (v : Volume) : EXT2BlockGroupDescriptor := getElem v.bgdt 0 group0_lt

/-- `bg_free_blocks_count` of group 0. -/
def freeBlocks (v : Volume) : ℕ := v.group0.bg_free_blocks_count.toNat

/-- `bg_free_inodes_count` of group 0. -/
def freeInodes (v : Volume) : ℕ := v.group0.bg_free_inodes_count.toNat

/-- Counters stored in memory and on disk. -/
def sync (v : Volume) (sb : EXT2Superblock) (g : EXT2BlockGroupDescriptor) : Volume :=
  { v with
    superblock := sb
    bgdt := v.bgdt.set 0 g group0_lt
    superblockCopy := sb
    group0Copy := g }

def takeBlock (v : Volume) (b : ℕ) : Volume :=
  { v.sync
      { v.superblock with s_free_blocks_count := v.superblock.s_free_blocks_count - 1 }
      { v.group0 with bg_free_blocks_count := v.group0.bg_free_blocks_count - 1 } with
    blockUsed := Function.update v.blockUsed b true }

def freeBlock (v : Volume) (b : ℕ) : Volume :=
  { v.sync
      { v.superblock with s_free_blocks_count := v.superblock.s_free_blocks_count + 1 }
      { v.group0 with bg_free_blocks_count := v.group0.bg_free_blocks_count + 1 } with
    blockUsed := Function.update v.blockUsed b false }

def takeInode (v : Volume) (n : ℕ) : Volume :=
  { v.sync
      { v.superblock with s_free_inodes_count := v.superblock.s_free_inodes_count - 1 }
      { v.group0 with bg_free_inodes_count := v.group0.bg_free_inodes_count - 1 } with
    inodeUsed := Function.update v.inodeUsed n true }

def freeInode (v : Volume) (n : ℕ) : Volume :=
  { v.sync
      { v.superblock with s_free_inodes_count := v.superblock.s_free_inodes_count + 1 }
      { v.group0 with bg_free_inodes_count := v.group0.bg_free_inodes_count + 1 } with
    inodeUsed := Function.update v.inodeUsed n false }

def setInode (v : Volume) (n : ℕ) (x : EXT2Inode) : Volume :=
  { v with inode := Function.update v.inode n x }

def setData (v : Volume) (b : ℕ) (buf : Block) : Volume :=
  { v with data := Function.update v.data b buf }

end Volume

/-! ## The view of a state -/

/-- The inode in slot `n` of the inode table. -/
def inodeAt (s : Fs) (n : ℕ) : EXT2Inode :=
  if 1 ≤ n ∧ n ≤ inodesPerGroup then
    EXT2Inode.ofImage
      ((s.disk (inodeTableLba + (n - 1) / 4)).extractLsb' (8 * ((n - 1) % 4 * inodeSize)) 1024)
  else EXT2Inode.zero

/-- Bit `b` of the block bitmap. -/
def blockUsed (s : Fs) (b : ℕ) : Bool := (s.disk blockBitmapLba).getLsbD b

/-- The bit of inode `n` in the inode bitmap. -/
def inodeUsed (s : Fs) (n : ℕ) : Bool := n != 0 && (s.disk inodeBitmapLba).getLsbD (n - 1)

def view (s : Fs) : Volume where
  superblock := s.superblock
  bgdt := s.bgdt
  initialized := s.initialized
  boot := s.disk bootSector
  superblockCopy := EXT2Superblock.ofImage ((s.disk superblockLba).extractLsb' 0 1632)
  group0Copy := EXT2BlockGroupDescriptor.ofImage ((s.disk bgdtLba).extractLsb' 0 256)
  blockUsed := blockUsed s
  inodeUsed := inodeUsed s
  inode := inodeAt s
  data := fun b => if b < rootDirBlockLba then 0 else s.disk b

theorem view_group0 (s : Fs) : (view s).group0 = s.group0 := rfl

theorem view_data (s : Fs) {b : ℕ} (h : 21 ≤ b) : (view s).data b = s.disk b :=
  if_neg (by simpa using h)

theorem ataAddress_of_lt {lba : ℕ} (h : lba < 2 ^ 28) : ataAddress lba = lba :=
  Nat.mod_eq_of_lt h

theorem disk_writeBlocks (s : Fs) (buf : Block) {lba : ℕ} (h : lba < 2 ^ 28) (l : ℕ) :
    (writeBlocks s buf lba).disk l = if l = lba then buf else s.disk l := by
  simp only [writeBlocks, ataAddress_of_lt h]

theorem readBlocks_of_lt (s : Fs) {lba : ℕ} (h : lba < 2 ^ 28) : readBlocks s lba = s.disk lba := by
  rw [readBlocks, ataAddress_of_lt h]

/-- The table block of an inode lies between the bitmaps and the root directory. -/
theorem tableBlock_bounds {n : ℕ} (h : 1 ≤ n ∧ n ≤ 64) :
    5 ≤ 5 + (n - 1) / 4 ∧ 5 + (n - 1) / 4 < 21 := by
  omega

theorem inodeAt_slot (s : Fs) {n : ℕ} (h : 1 ≤ n ∧ n ≤ 64) :
    inodeAt s n =
      EXT2Inode.ofImage ((s.disk (5 + (n - 1) / 4)).extractLsb' (8 * ((n - 1) % 4 * 128)) 1024) :=
  if_pos h

theorem inodeAt_outside (s : Fs) {n : ℕ} (h : ¬ (1 ≤ n ∧ n ≤ 64)) : inodeAt s n = EXT2Inode.zero :=
  if_neg h

theorem inodeAt_congr {s s' : Fs} (h : ∀ l, 5 ≤ l → l < 21 → s'.disk l = s.disk l) :
    inodeAt s' = inodeAt s := by
  funext n
  by_cases hn : 1 ≤ n ∧ n ≤ 64
  · obtain ⟨hlo, hhi⟩ := tableBlock_bounds hn
    rw [inodeAt_slot s' hn, inodeAt_slot s hn, h _ hlo hhi]
  · rw [inodeAt_outside s' hn, inodeAt_outside s hn]

/-- A block behind the inode table holds data and nothing else. -/
theorem view_writeBlocks (s : Fs) (buf : Block) {b : ℕ} (h : 21 ≤ b) (hb : b < 2 ^ 28) :
    view (writeBlocks s buf b) = (view s).setData b buf := by
  have hdisk := disk_writeBlocks s buf hb
  have hlow : ∀ l, l < 21 → (writeBlocks s buf b).disk l = s.disk l := by
    intro l hl
    rw [hdisk, if_neg (by omega)]
  ext1
  · rfl
  · rfl
  · rfl
  · exact hlow 0 (by omega)
  · change EXT2Superblock.ofImage (((writeBlocks s buf b).disk 1).extractLsb' 0 1632) = _
    rw [hlow 1 (by omega)]
    rfl
  · change EXT2BlockGroupDescriptor.ofImage (((writeBlocks s buf b).disk 2).extractLsb' 0 256) = _
    rw [hlow 2 (by omega)]
    rfl
  · funext c
    change ((writeBlocks s buf b).disk 3).getLsbD c = _
    rw [hlow 3 (by omega)]
    rfl
  · funext c
    change (c != 0 && ((writeBlocks s buf b).disk 4).getLsbD (c - 1)) = _
    rw [hlow 4 (by omega)]
    rfl
  · exact inodeAt_congr fun l _ hl => hlow l hl
  · funext c
    change (if c < 21 then 0 else (writeBlocks s buf b).disk c) =
      Function.update (view s).data b buf c
    rw [hdisk]
    by_cases hcb : c = b
    · subst hcb
      rw [if_neg (by omega), if_pos rfl, Function.update_self]
    · rw [if_neg hcb, Function.update_of_ne hcb]
      rfl

theorem view_syncMetadata (env : Env) (s : Fs) :
    view (syncMetadata env s) = (view s).sync s.superblock s.group0 := by
  have hdisk : ∀ l, (syncMetadata env s).disk l =
      if l = 2 then splice (splice (env.junk s.log.length) 0 s.superblock.image) 0 s.group0.image
      else if l = 1 then splice (env.junk s.log.length) 0 s.superblock.image
      else s.disk l := fun _ => rfl
  ext1
  · rfl
  · change s.bgdt = s.bgdt.set 0 s.bgdt[0]
    simp
  · rfl
  · rfl
  · change EXT2Superblock.ofImage (((syncMetadata env s).disk 1).extractLsb' 0 1632) = _
    rw [hdisk, if_neg (by decide), if_pos rfl, extract_splice _ _ (by decide)]
    exact s.superblock.ofImage_image
  · change EXT2BlockGroupDescriptor.ofImage (((syncMetadata env s).disk 2).extractLsb' 0 256) = _
    rw [hdisk, if_pos rfl, extract_splice _ _ (by decide)]
    exact s.group0.ofImage_image
  · rfl
  · rfl
  · exact inodeAt_congr fun l hlo _ => by rw [hdisk, if_neg (by omega), if_neg (by omega)]
  · funext c
    change (if c < 21 then 0 else (syncMetadata env s).disk c) = if c < 21 then 0 else s.disk c
    by_cases hc : c < 21
    · rw [if_pos hc, if_pos hc]
    · rw [if_neg hc, if_neg hc, hdisk, if_neg (by omega), if_neg (by omega)]

/-- A new block bitmap. -/
theorem view_writeBitmap (s : Fs) (buf : Block) :
    view (writeBlocks s buf blockBitmapLba) =
      { view s with blockUsed := fun b => buf.getLsbD b } := by
  have hdisk : ∀ l, (writeBlocks s buf blockBitmapLba).disk l = if l = 3 then buf else s.disk l :=
    disk_writeBlocks s buf (by decide)
  ext1
  case inode => exact inodeAt_congr fun l hlo _ => by rw [hdisk, if_neg (by omega)]
  case data =>
    funext c
    change (if c < 21 then 0 else (writeBlocks s buf blockBitmapLba).disk c) =
      if c < 21 then 0 else s.disk c
    by_cases hc : c < 21
    · rw [if_pos hc, if_pos hc]
    · rw [if_neg hc, if_neg hc, hdisk, if_neg (by omega)]
  all_goals rfl

/-- A new inode bitmap. -/
theorem view_writeInodeBitmap (s : Fs) (buf : Block) :
    view (writeBlocks s buf inodeBitmapLba) =
      { view s with inodeUsed := fun n => n != 0 && buf.getLsbD (n - 1) } := by
  have hdisk : ∀ l, (writeBlocks s buf inodeBitmapLba).disk l = if l = 4 then buf else s.disk l :=
    disk_writeBlocks s buf (by decide)
  ext1
  case inode => exact inodeAt_congr fun l hlo _ => by rw [hdisk, if_neg (by omega)]
  case data =>
    funext c
    change (if c < 21 then 0 else (writeBlocks s buf inodeBitmapLba).disk c) =
      if c < 21 then 0 else s.disk c
    by_cases hc : c < 21
    · rw [if_pos hc, if_pos hc]
    · rw [if_neg hc, if_neg hc, hdisk, if_neg (by omega)]
  all_goals rfl

/-! ## Allocation and release -/

/-- The common end of every allocation and release. -/
theorem view_commit (env : Env) (s : Fs) (sb : EXT2Superblock) (g : EXT2BlockGroupDescriptor) :
    view (syncMetadata env (({ s with superblock := sb } : Fs).setGroup0 g)) =
      (view s).sync sb g := by
  rw [view_syncMetadata]
  ext1
  case bgdt => simp [Volume.sync, Fs.setGroup0, Fs.group0, view]
  case group0Copy => simp [Volume.sync, Fs.setGroup0, Fs.group0]
  all_goals rfl

theorem getLsbD_setBit_update (buf : Block) {i : ℕ} (h : i < 4096) :
    (fun b => (setBit buf i).getLsbD b) = Function.update (fun b => buf.getLsbD b) i true := by
  funext b
  rw [getLsbD_setBit _ (by omega)]
  by_cases hb : b = i
  · simp [hb]
  · simp only [hb, decide_false, Bool.or_false, ne_eq, not_false_eq_true, Function.update_of_ne]

theorem getLsbD_clearBit_update (buf : Block) {i : ℕ} (h : i < 4096) :
    (fun b => (clearBit buf i).getLsbD b) = Function.update (fun b => buf.getLsbD b) i false := by
  funext b
  rw [getLsbD_clearBit _ (by omega)]
  by_cases hb : b = i
  · simp [hb]
  · simp only [hb, decide_false, Bool.not_false, Bool.and_true, ne_eq, not_false_eq_true,
      Function.update_of_ne]

/-- In the inode bitmap bit `i` stands for inode `i + 1`. -/
theorem inodeBits_update (p : ℕ → Bool) (i : ℕ) (c : Bool) :
    (fun n => n != 0 && Function.update p i c (n - 1)) =
      Function.update (fun n => n != 0 && p (n - 1)) (i + 1) c := by
  funext n
  by_cases hn : n = i + 1
  · subst hn
    simp
  · rw [Function.update_of_ne hn]
    by_cases h0 : n = 0
    · simp [h0]
    · rw [Function.update_of_ne (by omega)]

theorem view_takeBlock (env : Env) (s : Fs) {i : ℕ} (h : i < 4096) :
    view (takeBlock env s i) = (view s).takeBlock i := by
  refine (view_commit env (writeBlocks s _ blockBitmapLba) _ _).trans ?_
  rw [view_writeBitmap, getLsbD_setBit_update _ h]
  rfl

theorem view_takeNode (env : Env) (s : Fs) {i : ℕ} (h : i < 4096) :
    view (takeNode env s i) = (view s).takeInode (i + 1) := by
  refine (view_commit env (writeBlocks s _ inodeBitmapLba) _ _).trans ?_
  have hbits := congrFun (getLsbD_setBit_update (readBlocks s inodeBitmapLba) h)
  rw [view_writeInodeBitmap]
  simp only [hbits]
  rw [inodeBits_update]
  rfl

theorem view_releaseNode (env : Env) (s : Fs) {n : ℕ} (h0 : 1 ≤ n) (h : n ≤ 4096) :
    view (releaseNode env s n) = (view s).freeInode n := by
  refine (view_commit env (writeBlocks s _ inodeBitmapLba) _ _).trans ?_
  have hbits := congrFun
    (getLsbD_clearBit_update (readBlocks s inodeBitmapLba) (show n - 1 < 4096 by omega))
  rw [view_writeInodeBitmap]
  simp only [hbits]
  rw [inodeBits_update, Nat.sub_add_cancel h0]
  rfl

theorem view_deallocateSingleBlock (env : Env) (s : Fs) {b : ℕ} (h : b < 4096) :
    view (deallocateSingleBlock env s b) =
      if b ≠ 0 ∧ (view s).blockUsed b = true then (view s).freeBlock b else view s := by
  unfold deallocateSingleBlock
  have htest : testBit (frame env s (readBlocks s blockBitmapLba)) b = 0 ↔
      (view s).blockUsed b = false := by
    rw [testBit_eq_zero, frame, agree_append _ _ le_rfl b (Nat.zero_le _) h]
    rfl
  by_cases hb : b = 0
  · rw [if_pos hb, if_neg (fun hc => hc.1 hb)]
  · rw [if_neg hb]
    by_cases ht : testBit (frame env s (readBlocks s blockBitmapLba)) b = 0
    · have hu := htest.mp ht
      simp only [ht, if_true]
      rw [if_neg (fun hc => by simp [hu] at hc)]
    · have hu : (view s).blockUsed b = true := by simpa using mt htest.mpr ht
      simp only [ht, if_false]
      rw [if_pos ⟨hb, hu⟩]
      refine (view_commit env (writeBlocks s _ blockBitmapLba) _ _).trans ?_
      rw [view_writeBitmap, getLsbD_clearBit_update _ h]
      rfl

/-! ## Inodes -/

/-- `read_inode` and `write_inode` reach slot `n` of the table for inode number `p`. -/
structure Addresses (env : Env) (s : Fs) (p n : ℕ) : Prop where
  ne_zero : p ≠ 0
  slot : 1 ≤ n ∧ n ≤ 64
  lba : inodeLba env s p = 5 + (n - 1) / 4
  offset : inodeOffset p = (n - 1) % 4 * 128

theorem Addresses.readInode {env : Env} {s : Fs} {p n : ℕ} (h : Addresses env s p n) :
    readInode env s p = some ((view s).inode n) := by
  have hlt := h.slot
  rw [Ext2.readInode, if_neg h.ne_zero]
  simp only [h.lba, h.offset]
  rw [readBlocks_of_lt s (by omega)]
  exact congrArg some (inodeAt_slot s h.slot).symm

theorem Addresses.writeInode {env : Env} {s : Fs} {p n : ℕ} (h : Addresses env s p n)
    (x : EXT2Inode) : view (writeInode env s p x) = (view s).setInode n x := by
  have hn := h.slot
  have hw : Ext2.writeInode env s p x =
      writeBlocks s (splice (s.disk (5 + (n - 1) / 4)) (8 * ((n - 1) % 4 * 128)) x.image)
        (5 + (n - 1) / 4) := by
    rw [Ext2.writeInode, if_neg h.ne_zero]
    simp only [h.lba, h.offset]
    rw [readBlocks_of_lt s (by omega)]
  rw [hw]
  generalize hbuf : splice (s.disk (5 + (n - 1) / 4)) (8 * ((n - 1) % 4 * 128)) x.image = buf
  have hdisk : ∀ l, (writeBlocks s buf (5 + (n - 1) / 4)).disk l =
      if l = 5 + (n - 1) / 4 then buf else s.disk l := disk_writeBlocks s buf (by omega)
  have hlow : ∀ l, l < 5 ∨ 21 ≤ l → (writeBlocks s buf (5 + (n - 1) / 4)).disk l = s.disk l := by
    intro l hl
    rw [hdisk, if_neg (by omega)]
  ext1
  · rfl
  · rfl
  · rfl
  · exact hlow 0 (by omega)
  · exact congrArg (fun b : Block => EXT2Superblock.ofImage (b.extractLsb' 0 1632))
      (hlow 1 (by omega))
  · exact congrArg (fun b : Block => EXT2BlockGroupDescriptor.ofImage (b.extractLsb' 0 256))
      (hlow 2 (by omega))
  · exact congrArg (fun (b : Block) c => b.getLsbD c) (hlow 3 (by omega))
  · exact congrArg (fun (b : Block) c => c != 0 && b.getLsbD (c - 1)) (hlow 4 (by omega))
  · funext m
    change inodeAt _ m = Function.update (inodeAt s) n x m
    by_cases hm : 1 ≤ m ∧ m ≤ 64
    · rw [inodeAt_slot _ hm, hdisk]
      by_cases hmn : m = n
      · subst hmn
        rw [if_pos rfl, Function.update_self, ← hbuf, extract_splice _ _ (by omega)]
        exact x.ofImage_image
      · rw [Function.update_of_ne hmn, inodeAt_slot s hm]
        by_cases hblk : (m - 1) / 4 = (n - 1) / 4
        · -- the two slots share a table block
          rw [if_pos (by omega), ← hbuf, hblk, extract_splice_ne _ _ (by omega)]
        · rw [if_neg (by omega)]
    · have hne : m ≠ n := fun hc => hm (hc ▸ h.slot)
      rw [inodeAt_outside _ hm, Function.update_of_ne hne, inodeAt_outside s hm]
  · funext c
    change (if c < 21 then 0 else (writeBlocks s buf _).disk c) = if c < 21 then 0 else s.disk c
    by_cases hc : c < 21
    · rw [if_pos hc, if_pos hc]
    · rw [if_neg hc, if_neg hc, hlow c (by omega)]

/-! ## Inode numbers -/

namespace Volume

/-- The inode table of each group. -/
def tables (v : Volume) : Vector (BitVec 32) 8 := v.bgdt.map fun g => g.bg_inode_table

theorem map_tables_set (t : Vector EXT2BlockGroupDescriptor 8) (g : EXT2BlockGroupDescriptor)
    (h : g.bg_inode_table = (getElem t 0 group0_lt).bg_inode_table) :
    (t.set 0 g group0_lt).map (fun g => g.bg_inode_table) = t.map fun g => g.bg_inode_table := by
  rw [Vector.map_set, h]
  have hself : (t.map fun g => g.bg_inode_table).set 0 ((t.map fun g => g.bg_inode_table)[0]) =
      t.map fun g => g.bg_inode_table := Vector.set_getElem_self _
  simpa using hself

variable (v : Volume) (b n : ℕ)

@[simp] theorem tables_takeBlock : (v.takeBlock b).tables = v.tables :=
  map_tables_set v.bgdt _ rfl
@[simp] theorem tables_freeBlock : (v.freeBlock b).tables = v.tables :=
  map_tables_set v.bgdt _ rfl
@[simp] theorem tables_takeInode : (v.takeInode n).tables = v.tables :=
  map_tables_set v.bgdt _ rfl
@[simp] theorem tables_freeInode : (v.freeInode n).tables = v.tables :=
  map_tables_set v.bgdt _ rfl

end Volume

/-- The descriptors `create_ext2` leaves: one group is set up, the others are zero. -/
def groupTables : Vector (BitVec 32) 8 := #v[5, 0, 0, 0, 0, 0, 0, 0]

/-- The inode numbers that `read_inode` and `write_inode` resolve inside the
inode table. From 65 on they are resolved through a descriptor that is zero. -/
def InTable (p : ℕ) : Prop :=
  1 ≤ p ∧ (p ≤ inodesPerGroup ∨
    (p ≤ inodesPerGroup * groupsCount ∧ 4 * inodeTableLba ≤ (p - 1) % inodesPerGroup))

instance (p : ℕ) : Decidable (InTable p) := by
  unfold InTable
  infer_instance

theorem inTable_iff (p : ℕ) :
    InTable p ↔ 1 ≤ p ∧ (p ≤ 64 ∨ (p ≤ 512 ∧ 20 ≤ (p - 1) % 64)) := Iff.rfl

/-- The slot of the inode table that such a number reaches. -/
def slotOf (p : ℕ) : ℕ := if p ≤ inodesPerGroup then p else (p - 1) % inodesPerGroup - 19

theorem slotOf_of_le {p : ℕ} (h : p ≤ 64) : slotOf p = p := if_pos h

theorem slotOf_of_gt {p : ℕ} (h : 64 < p) : slotOf p = (p - 1) % 64 - 19 :=
  if_neg (Nat.not_le.mpr h)

theorem slotOf_bounds {p : ℕ} (h : InTable p) : 1 ≤ slotOf p ∧ slotOf p ≤ 64 := by
  rw [inTable_iff] at h
  by_cases hp : p ≤ 64
  · rw [slotOf_of_le hp]
    omega
  · rw [slotOf_of_gt (by omega)]
    omega

theorem inodeToBgd_eq {p : ℕ} (h : p ≠ 0) : inodeToBgd p = (p - 1) / 64 := if_neg h

theorem inodeToLocal_eq {p : ℕ} (h : p ≠ 0) : inodeToLocal p = (p - 1) % 64 := if_neg h

theorem inodeLba_eq (env : Env) (s : Fs) {p : ℕ} (h0 : p ≠ 0) (h : (p - 1) / 64 < 8) :
    inodeLba env s p = ((view s).tables[(p - 1) / 64]).toNat + (p - 1) % 64 / 4 := by
  unfold inodeLba tableLba
  rw [inodeToBgd_eq h0, inodeToLocal_eq h0, Vector.getElem?_eq_getElem h]
  simp only [Volume.tables, Vector.getElem_map]
  rfl

theorem inodeOffset_eq {p : ℕ} (h : p ≠ 0) : inodeOffset p = (p - 1) % 64 % 4 * 128 := by
  rw [inodeOffset, inodeToLocal_eq h]
  rfl

theorem inodeLba_congr {env : Env} {s s' : Fs} (ht : (view s').tables = (view s).tables) (p : ℕ) :
    inodeLba env s' p = inodeLba env s p := by
  have hget : ∀ k : ℕ, s'.bgdt[k]?.map (fun g => g.bg_inode_table) =
      s.bgdt[k]?.map fun g => g.bg_inode_table := by
    intro k
    rw [← Vector.getElem?_map, ← Vector.getElem?_map]
    exact congrArg (fun t : Vector (BitVec 32) 8 => t[k]?) ht
  have htable : ∀ k, tableLba env s' k = tableLba env s k := by
    intro k
    have hk := hget k
    unfold tableLba
    cases h : s.bgdt[k]? <;> cases h' : s'.bgdt[k]? <;> simp_all
  unfold inodeLba
  rw [htable]

theorem Addresses.congr {env : Env} {s s' : Fs} {p n : ℕ} (h : Addresses env s p n)
    (ht : (view s').tables = (view s).tables) : Addresses env s' p n :=
  ⟨h.ne_zero, h.slot, (inodeLba_congr ht p).trans h.lba, h.offset⟩

/-- An inode number of group 0 is its own slot. -/
theorem addresses_slot {env : Env} {s : Fs} (ht : (view s).group0.bg_inode_table = 5) {n : ℕ}
    (h : 1 ≤ n ∧ n ≤ 64) : Addresses env s n n where
  ne_zero := by omega
  slot := h
  lba := by
    have hg : (n - 1) / 64 = 0 := by omega
    rw [inodeLba_eq env s (by omega) (by omega)]
    simp only [hg, Volume.tables, Vector.getElem_map]
    change (Volume.group0 (view s)).bg_inode_table.toNat + _ = _
    rw [ht, Nat.mod_eq_of_lt (by omega)]
    rfl
  offset := by rw [inodeOffset_eq (by omega), Nat.mod_eq_of_lt (show n - 1 < 64 by omega)]

theorem table_of_tables {v : Volume} (ht : v.tables = groupTables) :
    v.group0.bg_inode_table = 5 := by
  have hg := congrArg (fun t : Vector (BitVec 32) 8 => t[0]) ht
  simpa [Volume.tables, Volume.group0, groupTables] using hg

theorem addresses_inTable_slot {env : Env} {s : Fs} (ht : (view s).tables = groupTables) {n : ℕ}
    (h : 1 ≤ n ∧ n ≤ 64) : Addresses env s n n :=
  addresses_slot (table_of_tables ht) h

theorem groupTables_zero {k : ℕ} (hk : k < 8) (h0 : k ≠ 0) : groupTables[k] = 0 := by
  interval_cases k <;> first | exact absurd rfl h0 | rfl

/-- A number past group 0 reaches a slot through the boot sector's address. -/
theorem addresses_inTable {env : Env} {s : Fs} (ht : (view s).tables = groupTables) {p : ℕ}
    (h : InTable p) : Addresses env s p (slotOf p) := by
  obtain ⟨h1, h⟩ := (inTable_iff p).mp h
  by_cases hp : p ≤ 64
  · rw [slotOf_of_le hp]
    exact addresses_inTable_slot ht ⟨h1, hp⟩
  · rw [slotOf_of_gt (by omega)]
    refine ⟨by omega, by omega, ?_, ?_⟩
    · rw [inodeLba_eq env s (by omega) (by omega)]
      simp only [ht]
      rw [groupTables_zero (by omega) (by omega)]
      change 0 + (p - 1) % 64 / 4 = _
      omega
    · rw [inodeOffset_eq (by omega)]
      omega

end RendangOS.Ext2
