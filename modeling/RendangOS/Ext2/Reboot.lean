import RendangOS.Ext2.Remount
import RendangOS.Ext2.StoreRefinement

/-!
# Reboots

`initialize_filesystem_ext2` brings back all but the descriptors behind the first one.
No call on the directories of the volume depends on these: every inode that it meets is
of group 0. A machine that is switched off and on between the calls therefore answers
as one that runs on.
-/

namespace RendangOS.Ext2

open Image

/-- The state with other descriptors behind the first one. -/
def Fs.withTable (s : Fs) (t : Vector EXT2BlockGroupDescriptor 8) : Fs :=
  { s with bgdt := t.set 0 s.group0 group0_lt }

variable {env : Env} {s m : Fs} {t : Vector EXT2BlockGroupDescriptor 8} {r : Request} {c : Call}
  {n p : ℕ} {name : EntryName}

/-! ## The parts of a state -/

@[simp] theorem withTable_group0 (s : Fs) (t : Vector EXT2BlockGroupDescriptor 8) :
    (s.withTable t).group0 = s.group0 := Vector.getElem_set_self ..

@[simp] theorem withTable_initialized (s : Fs) (t : Vector EXT2BlockGroupDescriptor 8) :
    (s.withTable t).initialized = s.initialized := rfl

@[simp] theorem withTable_superblock (s : Fs) (t : Vector EXT2BlockGroupDescriptor 8) :
    (s.withTable t).superblock = s.superblock := rfl

@[simp] theorem withTable_log (s : Fs) (t : Vector EXT2BlockGroupDescriptor 8) :
    (s.withTable t).log = s.log := rfl

@[simp] theorem readBlocks_withTable (s : Fs) (t : Vector EXT2BlockGroupDescriptor 8) (lba : ℕ) :
    readBlocks (s.withTable t) lba = readBlocks s lba := rfl

@[simp] theorem frame_withTable (env : Env) (s : Fs) (t : Vector EXT2BlockGroupDescriptor 8)
    (buf : Block) : frame env (s.withTable t) buf = frame env s buf := rfl

@[simp] theorem writeBlocks_withTable (s : Fs) (t : Vector EXT2BlockGroupDescriptor 8) (buf : Block)
    (lba : ℕ) : writeBlocks (s.withTable t) buf lba = (writeBlocks s buf lba).withTable t := rfl

@[simp] theorem setGroup0_withTable (s : Fs) (t : Vector EXT2BlockGroupDescriptor 8)
    (g : EXT2BlockGroupDescriptor) : (s.withTable t).setGroup0 g = (s.setGroup0 g).withTable t := by
  have hg : (s.setGroup0 g).group0 = g := Vector.getElem_set_self ..
  unfold Fs.withTable
  rw [hg]
  unfold Fs.setGroup0
  dsimp only
  rw [Vector.set_set]

/-- New counters in both structures. -/
def Fs.account (s : Fs) (f : EXT2Superblock → EXT2Superblock)
    (g : EXT2BlockGroupDescriptor → EXT2BlockGroupDescriptor) : Fs :=
  Fs.setGroup0 { s with superblock := f s.superblock } (g s.group0)

@[simp] theorem account_withTable (s : Fs) (t : Vector EXT2BlockGroupDescriptor 8)
    (f : EXT2Superblock → EXT2Superblock)
    (g : EXT2BlockGroupDescriptor → EXT2BlockGroupDescriptor) :
    (s.withTable t).account f g = (s.account f g).withTable t := by
  unfold Fs.account
  rw [withTable_group0]
  exact setGroup0_withTable { s with superblock := f s.superblock } t (g s.group0)

/-! ## Allocation -/

@[simp] theorem syncMetadata_withTable (env : Env) (s : Fs) :
    syncMetadata env (s.withTable t) = (syncMetadata env s).withTable t := by
  simp [syncMetadata]

@[simp] theorem takeBlock_withTable (env : Env) (s : Fs) (i : ℕ) :
    takeBlock env (s.withTable t) i = (takeBlock env s i).withTable t := by
  change syncMetadata env (Fs.account (writeBlocks (s.withTable t) _ _)
    (fun x => { x with s_free_blocks_count := x.s_free_blocks_count - 1 })
    fun g => { g with bg_free_blocks_count := g.bg_free_blocks_count - 1 }) = _
  rw [writeBlocks_withTable, account_withTable, syncMetadata_withTable]
  rfl

@[simp] theorem allocateBlock_withTable (env : Env) (s : Fs) :
    allocateBlock env (s.withTable t) =
      ((allocateBlock env s).1, (allocateBlock env s).2.withTable t) := by
  unfold allocateBlock
  rw [withTable_group0, readBlocks_withTable]
  split
  · rfl
  · split
    · rw [takeBlock_withTable]
    · rfl

@[simp] theorem deallocateSingleBlock_withTable (env : Env) (s : Fs) (b : ℕ) :
    deallocateSingleBlock env (s.withTable t) b = (deallocateSingleBlock env s b).withTable t := by
  by_cases hb : b = 0
  · rw [deallocateSingleBlock, deallocateSingleBlock, if_pos hb, if_pos hb]
  · rw [deallocateSingleBlock, deallocateSingleBlock, if_neg hb, if_neg hb]
    change (if testBit (frame env s (readBlocks s blockBitmapLba)) b = 0 then s.withTable t else
      syncMetadata env (Fs.account (writeBlocks (s.withTable t) _ _)
        (fun x => { x with s_free_blocks_count := x.s_free_blocks_count + 1 })
        fun g => { g with bg_free_blocks_count := g.bg_free_blocks_count + 1 })) = Fs.withTable
      (if testBit (frame env s (readBlocks s blockBitmapLba)) b = 0 then s else _) t
    rw [writeBlocks_withTable, account_withTable, syncMetadata_withTable]
    split <;> rfl

@[simp] theorem takeNode_withTable (env : Env) (s : Fs) (i : ℕ) :
    takeNode env (s.withTable t) i = (takeNode env s i).withTable t := by
  change syncMetadata env (Fs.account (writeBlocks (s.withTable t) _ _)
    (fun x => { x with s_free_inodes_count := x.s_free_inodes_count - 1 })
    fun g => { g with bg_free_inodes_count := g.bg_free_inodes_count - 1 }) = _
  rw [writeBlocks_withTable, account_withTable, syncMetadata_withTable]
  rfl

@[simp] theorem allocateNode_withTable (env : Env) (s : Fs) :
    allocateNode env (s.withTable t) =
      ((allocateNode env s).1, (allocateNode env s).2.withTable t) := by
  unfold allocateNode
  rw [withTable_initialized, withTable_group0, readBlocks_withTable]
  split
  · rfl
  · split
    · rfl
    · split
      · rw [takeNode_withTable]
      · rfl

@[simp] theorem releaseNode_withTable (env : Env) (s : Fs) (n : ℕ) :
    releaseNode env (s.withTable t) n = (releaseNode env s n).withTable t := by
  change syncMetadata env (Fs.account (writeBlocks (s.withTable t) _ _)
    (fun x => { x with s_free_inodes_count := x.s_free_inodes_count + 1 })
    fun g => { g with bg_free_inodes_count := g.bg_free_inodes_count + 1 }) = _
  rw [writeBlocks_withTable, account_withTable, syncMetadata_withTable]
  rfl

@[simp] theorem deallocatePointers_withTable (env : Env) (s : Fs) (blocks : List ℕ) :
    deallocatePointers env (s.withTable t) blocks =
      (deallocatePointers env s blocks).withTable t := by
  unfold deallocatePointers
  induction blocks generalizing s with
  | nil => rfl
  | cons b blocks ih =>
      rw [List.foldl_cons, List.foldl_cons, deallocateSingleBlock_withTable]
      split
      · exact ih _
      · exact ih s

/-! ## Inodes of group 0 -/

theorem inodeLba_withTable (env : Env) (s : Fs) (hn : n ≤ 64) :
    inodeLba env (s.withTable t) n = inodeLba env s n := by
  have hgroup : inodeToBgd n = 0 := by
    unfold inodeToBgd
    split
    · rfl
    · exact Nat.div_eq_of_lt (show n - 1 < 64 by omega)
  have htable : tableLba env (s.withTable t) 0 = tableLba env s 0 := by
    unfold tableLba
    rw [Vector.getElem?_eq_getElem group0_lt, Vector.getElem?_eq_getElem group0_lt]
    exact congrArg (fun g => g.bg_inode_table.toNat) (withTable_group0 s t)
  unfold inodeLba
  rw [hgroup, htable]

theorem readInode_withTable (env : Env) (s : Fs) (hn : n ≤ 64) :
    readInode env (s.withTable t) n = readInode env s n := by
  unfold readInode
  rw [inodeLba_withTable env s hn, readBlocks_withTable]

theorem writeInode_withTable (env : Env) (s : Fs) (hn : n ≤ 64) (x : EXT2Inode) :
    writeInode env (s.withTable t) n x = (writeInode env s n x).withTable t := by
  unfold writeInode
  rw [inodeLba_withTable env s hn]
  split <;> rfl

theorem deallocateNode_withTable (env : Env) (s : Fs) (hn : n ≤ 64) :
    deallocateNode env (s.withTable t) n = (deallocateNode env s n).withTable t := by
  unfold deallocateNode
  rw [withTable_initialized, readInode_withTable env s hn]
  split
  · rfl
  · cases readInode env s n with
    | none => rfl
    | some x =>
        dsimp only
        rw [deallocatePointers_withTable]
        split
        · rw [readBlocks_withTable, deallocatePointers_withTable, deallocateSingleBlock_withTable,
            writeInode_withTable env _ hn, releaseNode_withTable]
        · rw [writeInode_withTable env _ hn, releaseNode_withTable]

/-! ## Directories -/

theorem findEntryInDir_withTable (env : Env) (s : Fs) (hp : p ≤ 64) (name : EntryName) :
    findEntryInDir env (s.withTable t) p name = findEntryInDir env s p name := by
  unfold findEntryInDir
  rw [readInode_withTable env s hp]
  rfl

theorem isDirectoryEmpty_withTable (env : Env) (s : Fs) (hn : n ≤ 64) :
    isDirectoryEmpty env (s.withTable t) n = isDirectoryEmpty env s n := by
  unfold isDirectoryEmpty
  rw [readInode_withTable env s hn]
  rfl

theorem removeEntryFromDir_withTable (env : Env) (s : Fs) (hp : p ≤ 64) (name : EntryName) :
    removeEntryFromDir env (s.withTable t) p name =
      ((removeEntryFromDir env s p name).1, (removeEntryFromDir env s p name).2.withTable t) := by
  unfold removeEntryFromDir
  rw [readInode_withTable env s hp]
  cases readInode env s p with
  | none => rfl
  | some parent =>
      dsimp only [readBlocks_withTable, frame_withTable]
      split <;> rfl

theorem addEntryLoop_withTable (env : Env) (hp : p ≤ 64) (n : ℕ) (name : EntryName)
    (fileType : BitVec 8) (parent : EXT2Inode) (is : List ℕ) (s : Fs) :
    addEntryLoop env p n name fileType parent is (s.withTable t) =
      ((addEntryLoop env p n name fileType parent is s).1,
        (addEntryLoop env p n name fileType parent is s).2.withTable t) := by
  induction is generalizing s with
  | nil => rfl
  | cons i is ih =>
      rw [addEntryLoop, addEntryLoop, allocateBlock_withTable]
      by_cases hfree : parent.block i = 0
      · rw [if_pos hfree, if_pos hfree]
        dsimp only
        split
        · rfl
        · rw [writeInode_withTable env _ hp, writeBlocks_withTable]
      · rw [if_neg hfree, if_neg hfree]
        dsimp only [readBlocks_withTable, frame_withTable]
        split
        · rfl
        · exact ih s

theorem addEntryToDir_withTable (env : Env) (s : Fs) (hp : p ≤ 64) (n : ℕ) (name : EntryName)
    (fileType : BitVec 8) :
    addEntryToDir env (s.withTable t) p n name fileType =
      ((addEntryToDir env s p n name fileType).1,
        (addEntryToDir env s p n name fileType).2.withTable t) := by
  unfold addEntryToDir
  rw [readInode_withTable env s hp]
  cases readInode env s p with
  | none => rfl
  | some parent => exact addEntryLoop_withTable env hp n name fileType parent _ s

/-! ## Calls -/

theorem writeDirect_withTable (env : Env) (r : Request) (is : List ℕ) (x : EXT2Inode) (s : Fs) :
    writeDirect env r is x (s.withTable t) =
      ((writeDirect env r is x s).1, (writeDirect env r is x s).2.withTable t) := by
  induction is generalizing x s with
  | nil => rfl
  | cons i is ih =>
      rw [writeDirect, writeDirect, allocateBlock_withTable]
      dsimp only
      split
      · rfl
      · rw [writeBlocks_withTable, ih]

theorem writeIndirect_withTable (env : Env) (r : Request) (is : List ℕ) (x : EXT2Inode)
    (table : Block) (s : Fs) :
    writeIndirect env r is x table (s.withTable t) =
      ((writeIndirect env r is x table s).1, (writeIndirect env r is x table s).2.1,
        (writeIndirect env r is x table s).2.2.withTable t) := by
  induction is generalizing x table s with
  | nil => rfl
  | cons i is ih =>
      rw [writeIndirect, writeIndirect, allocateBlock_withTable]
      dsimp only
      split
      · rfl
      · rw [writeBlocks_withTable, ih]

theorem writeContent_withTable (env : Env) (r : Request) (n : ℕ) (s : Fs) :
    writeContent env r n (s.withTable t) =
      ((writeContent env r n s).1, (writeContent env r n s).2.withTable t) := by
  unfold writeContent
  split
  · unfold writeFile
    rw [writeDirect_withTable]
    dsimp only
    split
    · rw [allocateBlock_withTable]
      dsimp only
      split
      · rfl
      · rw [writeIndirect_withTable]
        rfl
    · rfl
  · split
    · unfold writeDir
      rw [allocateBlock_withTable]
      dsimp only
      split <;> rfl
    · rfl

theorem allocateNode_le (env : Env) (s : Fs) : (allocateNode env s).1 ≤ 64 := by
  unfold allocateNode
  split
  · exact Nat.zero_le _
  · split
    · exact Nat.zero_le _
    · split
      · next i hi =>
        have hlt := List.mem_range.mp (List.mem_of_find?_eq_some hi)
        exact hlt
      · exact Nat.zero_le _

theorem write_withTable (env : Env) (s : Fs) (hp : r.parent ≤ 64) :
    write env (s.withTable t) r = ((write env s r).1, (write env s r).2.withTable t) := by
  have hn := allocateNode_le env s
  unfold write
  rw [withTable_initialized, findEntryInDir_withTable env s hp, allocateNode_withTable]
  generalize allocateNode env s = node at hn
  obtain ⟨n, s₁⟩ := node
  dsimp only at hn ⊢
  rw [writeContent_withTable, writeInode_withTable env _ hn, addEntryToDir_withTable env _ hp]
  split_ifs <;> rfl

theorem delete_withTable (env : Env) (s : Fs) (hp : r.parent ≤ 64)
    (hn : findEntryInDir env s r.parent r.name ≤ 64) :
    delete env (s.withTable t) r = ((delete env s r).1, (delete env s r).2.withTable t) := by
  unfold delete
  rw [withTable_initialized, findEntryInDir_withTable env s hp]
  generalize findEntryInDir env s r.parent r.name = n at hn
  dsimp only
  rw [readInode_withTable env s hn, isDirectoryEmpty_withTable env s hn,
    removeEntryFromDir_withTable env s hp]
  split
  · rfl
  · split
    · rfl
    · split
      · rfl
      · split
        · rfl
        · cases readInode env s n with
          | none => rfl
          | some x =>
              dsimp only
              rw [deallocateNode_withTable env _ hn]
              split_ifs <;> rfl

theorem read_withTable (env : Env) (s : Fs) (hp : r.parent ≤ 64)
    (hn : findEntryInDir env s r.parent r.name ≤ 64) :
    read env (s.withTable t) r = read env s r := by
  have hcopy : ∀ total bs acc,
      copyBlocks (s.withTable t) total bs acc = copyBlocks s total bs acc := by
    intro total bs
    induction bs with
    | nil => exact fun _ => rfl
    | cons b bs ih =>
        intro acc
        rw [copyBlocks, copyBlocks]
        split
        · exact ih _
        · rfl
  unfold read
  rw [withTable_initialized, findEntryInDir_withTable env s hp]
  dsimp only
  rw [readInode_withTable env s hn]
  simp only [hcopy, readBlocks_withTable]

theorem stat_withTable (env : Env) (s : Fs) (hp : p ≤ 64)
    (hn : findEntryInDir env s p name ≤ 64) (null : Bool) :
    stat env (s.withTable t) name null p = stat env s name null p := by
  unfold stat
  rw [withTable_initialized, findEntryInDir_withTable env s hp]
  dsimp only
  rw [readInode_withTable env s hn]

/-! ## The machine -/

/-- A system call, or the machine goes off and on and mounts its disk. -/
inductive MachineEvent where
  | call (a : Action)
  | reboot

def MachineEvent.action : MachineEvent → Option Action
  | .call a => some a
  | .reboot => none

/-- The memory is lost, whatever is in it afterwards; `log` is about the disk. -/
def machineSystem : System MachineEvent where
  State := Fs
  step := fun m e m' =>
    match e with
    | .call a => fsSystem.step m a m'
    | .reboot => ∃ env ram, ram.disk = m.disk ∧ ram.log = m.log ∧
        m' = initializeFilesystemExt2 env ram

/-- The state with the descriptors of `create_ext2` behind the first one. -/
def Fs.plain (s : Fs) : Fs :=
  s.withTable (Vector.replicate 8 (EXT2BlockGroupDescriptor.ofImage 0))

theorem Mounted.plain (h : Mounted (view s)) : s.plain = s := by
  have htable : (Vector.replicate 8 (EXT2BlockGroupDescriptor.ofImage 0)).set 0 s.group0 group0_lt =
      s.bgdt := by
    ext1 k hk
    rw [Vector.getElem_set]
    by_cases hk0 : 0 = k
    · subst hk0
      rw [if_pos rfl]
      rfl
    · rw [if_neg hk0, Vector.getElem_replicate]
      have hother := h.others k (Ne.symm hk0) hk
      exact (Option.some.inj ((Vector.getElem?_eq_getElem hk).symm.trans hother)).symm
  unfold Fs.plain Fs.withTable
  rw [htable]

/-- Any state has its own table behind the plain one. -/
theorem plain_withTable (s : Fs) : s.plain.withTable s.bgdt = s := by
  have htable : s.bgdt.set 0 s.group0 group0_lt = s.bgdt := Vector.set_getElem_self ..
  unfold Fs.withTable
  rw [show s.plain.group0 = s.group0 from withTable_group0 ..]
  change ({ s with bgdt := s.bgdt.set 0 s.group0 group0_lt } : Fs) = s
  rw [htable]

@[simp] theorem withTable_plain (s : Fs) (t : Vector EXT2BlockGroupDescriptor 8) :
    (s.withTable t).plain = s.plain := by
  change ({ s with bgdt := Vector.set _ 0 (s.withTable t).group0 group0_lt } : Fs) = _
  rw [withTable_group0]
  rfl

/-- The disk of `s` is mounted with its own table in front. -/
theorem Mounted.reboot (h : Mounted (view s)) (env : Env) {ram : Fs} (hdisk : ram.disk = s.disk)
    (hlog : ram.log = s.log) : (initializeFilesystemExt2 env ram).plain = s := by
  have hgroup : (loadTable (s.disk bgdtLba))[0] = s.group0 := by
    refine Eq.trans (Vector.getElem_ofFn ..) ?_
    exact h.settled.synced.group0
  have htable :
      (loadTable (s.disk bgdtLba)).set 0 s.group0 group0_lt = loadTable (s.disk bgdtLba) := by
    rw [← hgroup]
    exact Vector.set_getElem_self ..
  have hinit : s.initialized = true := h.settled.sound.initialized
  have hmount : initializeFilesystemExt2 env ram = s.withTable (loadTable (s.disk bgdtLba)) := by
    rw [h.remounted env hdisk]
    unfold Fs.withTable
    rw [htable, hdisk, hlog, ← hinit]
  rw [hmount, withTable_plain, h.plain]

/-- A call that the machine answers is answered alike without the reboots. -/
theorem machine_call (h : Reachable ProperCall m.plain) {a : Action} {m' : Fs}
    (hstep : fsSystem.step m a m') :
    fsSystem.step m.plain a m'.plain := by
  have hs := reachable_settled (h.mono fun _ _ hc => hc.onDirectory)
  have hmount : ∀ {s'}, Reachable ProperCall s' → Mounted (view s') := fun hreach =>
    reachable_mounted (hreach.mono fun _ _ hc => hc.onDirectory)
  have hfound : ∀ env p name, AllocatedDir m.plain p → findEntryInDir env m.plain p name ≤ 64 := by
    intro env p name hp
    by_cases hzero : findEntryInDir env m.plain p name = 0
    · rw [hzero]
      exact Nat.zero_le _
    · obtain ⟨e, he, -, hinode⟩ := hs.found_entry hp.2 hzero
      rw [hinode]
      exact (hs.target_slot hp.2 he).2
  have hm := plain_withTable m
  generalize m.bgdt = t at hm
  generalize m.plain = s at *
  subst hm
  cases a with
  | write r code =>
      obtain ⟨hc, env, hres⟩ := hstep
      have hslot := isSlot_of_isDir hc.1.2
      rw [write_withTable (r := r) env s hslot.2] at hres
      obtain ⟨rfl, rfl⟩ := Prod.mk.inj hres
      have hnext : Reachable ProperCall (write env s r).2 := h.step env hc
      refine ⟨hc, env, ?_⟩
      rw [withTable_plain, (hmount hnext).plain]
  | delete r code =>
      obtain ⟨hc, env, hres⟩ := hstep
      have hslot := isSlot_of_isDir hc.1.2
      rw [delete_withTable (r := r) env s hslot.2 (hfound env r.parent r.name hc.1)] at hres
      obtain ⟨rfl, rfl⟩ := Prod.mk.inj hres
      have hnext : Reachable ProperCall (delete env s r).2 := h.step env hc
      refine ⟨hc, env, ?_⟩
      rw [withTable_plain, (hmount hnext).plain]
  | read q answer =>
      obtain ⟨hp, ⟨env, rfl⟩, rfl⟩ := hstep
      have hslot := isSlot_of_isDir hp.2
      rw [withTable_plain, (hmount h).plain,
        read_withTable env s hslot.2 (hfound env q.parent q.name hp)]
      exact ⟨hp, ⟨env, rfl⟩, rfl⟩
  | stat name null parent answer =>
      obtain ⟨hp, ⟨env, rfl⟩, rfl⟩ := hstep
      have hslot := isSlot_of_isDir hp.2
      rw [withTable_plain, (hmount h).plain,
        stat_withTable env s hslot.2 (hfound env parent name hp)]
      exact ⟨hp, ⟨env, rfl⟩, rfl⟩

/-- Seen through the plain state, a reboot is no step at all. -/
theorem machine_projects :
    machineSystem.Projects fsSystem (fun m => Reachable ProperCall (Fs.plain m)) Fs.plain
      MachineEvent.action where
  keeps := by
    intro m e m' h hstep
    cases e with
    | call a => exact fsSystem_refines.keeps _ a _ h (machine_call h hstep)
    | reboot =>
        obtain ⟨env, ram, hdisk, hlog, rfl⟩ := hstep
        have hmount := reachable_mounted (h.mono fun _ _ hc => hc.onDirectory)
        exact (hmount.reboot env hdisk hlog).symm ▸ h
  step := by
    intro m e m' h hstep
    cases e with
    | call a => exact Or.inl ⟨a, rfl, machine_call h hstep⟩
    | reboot =>
        obtain ⟨env, ram, hdisk, hlog, rfl⟩ := hstep
        have hmount := reachable_mounted (h.mono fun _ _ hc => hc.onDirectory)
        exact Or.inr ⟨rfl, hmount.reboot env hdisk hlog⟩

theorem storeOf_withTable (s : Fs) (t : Vector EXT2BlockGroupDescriptor 8) :
    storeOf (s.withTable t) = storeOf s := by
  unfold storeOf
  rw [withTable_group0]
  rfl

end RendangOS.Ext2
