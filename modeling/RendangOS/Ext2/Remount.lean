import RendangOS.Ext2.CallTrace
import RendangOS.Ext2.Removal

/-!
# Mounting the disk again

`initialize_filesystem_ext2` loads the superblock and the descriptor table from
their blocks. The superblock comes back as it was. The descriptor block does
not: `create_ext2` clears the buffer before it copies the first descriptor, the
allocator copies it over the superblock it has just written.
-/

namespace RendangOS.Ext2

open Image RecordChain Assoc Journal

/-- `initialize_filesystem_ext2`. Each structure takes the first bytes of the
block read over it. -/
def initializeFilesystemExt2 (env : Env) (s : Fs) : Fs :=
  if isEmptyStorage s then { createExt2 env s with initialized := true }
  else
    let s := { s with superblock :=
      EXT2Superblock.ofImage ((readBlocks s superblockLba).extractLsb' 0 1632) }
    let s := { s with bgdt := Vector.ofFn fun k : Fin 8 =>
      EXT2BlockGroupDescriptor.ofImage ((readBlocks s bgdtLba).extractLsb' (256 * k) 256) }
    if s.superblock.s_magic = ext2SuperMagic then { s with initialized := true } else s

/-- A machine that mounts the disk of `s` formats nothing, comes up, and has the
superblock and the descriptor table of `s` in memory. -/
structure Transparent (s : Fs) : Prop where
  disk : ∀ env m, m.disk = s.disk → (initializeFilesystemExt2 env m).disk = s.disk
  log : ∀ env m, m.disk = s.disk → (initializeFilesystemExt2 env m).log = m.log
  initialized : ∀ env m, m.disk = s.disk → (initializeFilesystemExt2 env m).initialized = true
  superblock : ∀ env m, m.disk = s.disk →
    (initializeFilesystemExt2 env m).superblock = s.superblock
  bgdt : ∀ env m, m.disk = s.disk → (initializeFilesystemExt2 env m).bgdt = s.bgdt

variable {env : Env} {s m : Fs} {c : Call} {r : Request}

/-- Every later operation then works on the same state. -/
theorem Transparent.same (h : Transparent s) (hs : s.initialized = true) (env : Env)
    (hdisk : m.disk = s.disk) (hlog : m.log = s.log) : initializeFilesystemExt2 env m = s := by
  have hd := h.disk env m hdisk
  have hl := (h.log env m hdisk).trans hlog
  have hi := (h.initialized env m hdisk).trans hs.symm
  have hsb := h.superblock env m hdisk
  have hbgdt := h.bgdt env m hdisk
  generalize initializeFilesystemExt2 env m = t at *
  obtain ⟨⟩ := t
  obtain ⟨⟩ := s
  simp only at *
  subst hd hl hi hsb hbgdt
  rfl

/-! ## Mounting a disk that has been formatted -/

theorem not_isEmptyStorage (hboot : (view s).boot = fsSignature) (hdisk : m.disk = s.disk) :
    isEmptyStorage m = false := by
  have hread : readBlocks m bootSector = fsSignature := by
    change m.disk 0 = fsSignature
    rw [hdisk]
    exact hboot
  unfold isEmptyStorage
  rw [hread, bne_self_eq_false]

/-- The table that is loaded from block `buf`. -/
def loadTable (buf : Block) : Vector EXT2BlockGroupDescriptor 8 :=
  Vector.ofFn fun k => EXT2BlockGroupDescriptor.ofImage (buf.extractLsb' (256 * k) 256)

theorem Mounted.remounted (h : Mounted (view s)) (env : Env) (hdisk : m.disk = s.disk) :
    initializeFilesystemExt2 env m =
      { m with superblock := s.superblock, bgdt := loadTable (s.disk bgdtLba),
               initialized := true } := by
  have hsb : EXT2Superblock.ofImage ((readBlocks m superblockLba).extractLsb' 0 1632) =
      s.superblock := by
    change EXT2Superblock.ofImage ((m.disk superblockLba).extractLsb' 0 1632) = s.superblock
    rw [hdisk]
    exact h.settled.synced.superblock
  have hempty := not_isEmptyStorage h.settled.sound.boot hdisk
  have hmagic : s.superblock.s_magic = ext2SuperMagic := h.magic
  unfold initializeFilesystemExt2
  rw [hempty, if_neg (by decide)]
  dsimp only
  rw [hsb, if_pos hmagic, ← hdisk]
  rfl

/-- All but the table always comes back. -/
theorem Mounted.transparent_iff (h : Mounted (view s)) :
    Transparent s ↔ loadTable (s.disk bgdtLba) = s.bgdt := by
  constructor
  · intro htrans
    have htable := htrans.bgdt .zero s rfl
    rwa [h.remounted .zero rfl] at htable
  · intro htable
    refine ⟨?_, ?_, ?_, ?_, ?_⟩
    · intro env m hdisk
      rw [h.remounted env hdisk]
      exact hdisk
    · intro env m hdisk
      rw [h.remounted env hdisk]
    · intro env m hdisk
      rw [h.remounted env hdisk]
    · intro env m hdisk
      rw [h.remounted env hdisk]
    · intro env m hdisk
      rw [h.remounted env hdisk]
      exact htable

/-- The magic number of the superblock lies in the second descriptor. -/
theorem Mounted.not_transparent (h : Mounted (view s)) (hmagic : HasMagic (s.disk bgdtLba)) :
    ¬ Transparent s := by
  intro htrans
  have htable := congrArg (fun t => t[1]) (h.transparent_iff.mp htrans)
  have hother : s.bgdt[1] = EXT2BlockGroupDescriptor.ofImage 0 := by
    have := h.others 1 (by decide) (by decide)
    exact Option.some.inj ((Vector.getElem?_eq_getElem (by decide)).symm.trans this)
  rw [hother] at htable
  have hloaded : (loadTable (s.disk bgdtLba))[1] =
      EXT2BlockGroupDescriptor.ofImage ((s.disk bgdtLba).extractLsb' 256 256) := by
    exact Vector.getElem_ofFn ..
  have hfield := congrArg (fun g => BitVec.extractLsb' 32 16 g.bg_reserved)
    (hloaded.symm.trans htable)
  change BitVec.extractLsb' 32 16 (BitVec.extractLsb' 160 96
    (BitVec.extractLsb' 256 256 (s.disk bgdtLba))) = 0 at hfield
  rw [extract_extract _ (by decide), extract_extract _ (by decide)] at hfield
  exact absurd (hmagic.symm.trans hfield) (by decide)

/-! ## A fresh disk -/

theorem createExt2_descriptor (env : Env) (s : Fs) :
    (createExt2 env s).disk bgdtLba = splice 0 0 initialGroup0.image := by
  have hzero := view_zeroTable s
  have hdisk := disk_zeroTable (formatMeta s) 16 le_rfl bgdtLba
  rw [createExt2_eq]
  change (writeBlocks (writeInode env ((List.range 16).foldl
    (fun s i => writeBlocks s 0 (inodeTableLba + i)) (formatMeta s)) rootInodeNo rootInode)
    (dotEntries rootInodeNo rootInodeNo) rootDirBlockLba).disk bgdtLba = _
  change view ((List.range 16).foldl
    (fun s i => writeBlocks s 0 (inodeTableLba + i)) (formatMeta s)) = _ at hzero
  generalize (List.range 16).foldl
    (fun s i => writeBlocks s 0 (inodeTableLba + i)) (formatMeta s) = t at *
  have ha : Addresses env t rootInodeNo 2 :=
    addresses_slot (by rw [hzero]; exact congrArg _ (group0_fresh s.disk)) (by decide)
  rw [disk_writeBlocks _ _ (by decide), if_neg (by decide)]
  unfold writeInode
  rw [if_neg ha.ne_zero]
  dsimp only
  rw [ha.lba, disk_writeBlocks _ _ (by decide), if_neg (by decide), hdisk, if_neg (by decide)]
  rfl

theorem loadTable_fresh :
    loadTable (splice 0 0 initialGroup0.image) =
      (Vector.replicate 8 (EXT2BlockGroupDescriptor.ofImage 0)).set 0 initialGroup0 group0_lt := by
  ext1 k hk
  unfold loadTable
  rw [Vector.getElem_ofFn, Vector.getElem_set]
  by_cases hk0 : 0 = k
  · subst hk0
    rw [if_pos rfl]
    change EXT2BlockGroupDescriptor.ofImage ((splice 0 0 initialGroup0.image).extractLsb' 0 256) = _
    rw [extract_splice _ _ (by decide), EXT2BlockGroupDescriptor.ofImage_image]
  · rw [if_neg hk0, Vector.getElem_replicate, extract_splice_ne _ _ (Or.inr (by dsimp only; omega))]
    have hzero : (0 : Block).extractLsb' (256 * k) 256 = 0 := by
      apply BitVec.eq_of_getLsbD_eq
      intro i _
      simp only [BitVec.getLsbD_extractLsb', BitVec.ofNat_eq_ofNat, BitVec.getLsbD_zero,
        Bool.and_false]
    rw [hzero]

theorem transparent_fresh (env : Env) (s : Fs) : Transparent (createExt2 env s) := by
  have hm : Mounted (view (createExt2 env s)) := reachable_mounted ⟨env, s, .refl⟩
  have hbgdt := congrArg Volume.bgdt (view_createExt2 env s)
  rw [hm.transparent_iff, createExt2_descriptor, loadTable_fresh]
  generalize createExt2 env s = t at hbgdt ⊢
  exact hbgdt.symm

/-! ## Calls that store the counters -/

/-- The call returns before it allocates or removes anything. -/
def Quiet (env : Env) (s : Fs) : Call → Prop
  | .write r => findEntryInDir env s r.parent r.name ≠ 0 ∨ (view s).NoInode
  | .delete r => r.name_null = true ∨ r.name.len = 0 ∨ Refused env s r

theorem EntryWrites.hasMagic {p : ℕ} {name : EntryName} {res : ℤ × Fs}
    (h : EntryWrites s p name res) (hs : Settled (view s)) (hd : ((view s).inode p).isDir = true)
    (hmagic : HasMagic (s.disk bgdtLba)) : HasMagic (res.2.disk bgdtLba) := by
  cases h with
  | split b buf hb _ =>
      obtain ⟨hge, hlt⟩ := (hs.sound.shape hd).bounds b hb
      dsimp only
      rwa [disk_writeBlocks s buf (by omega), if_neg (by simp; omega)]
  | full => exact hmagic
  | grow s' _ hgrow =>
      rcases hgrow.last.group with hsame | hnew
      · change HasMagic (s'.disk bgdtLba)
        rwa [hsame]
      · exact hnew

/-- A call is quiet and changes nothing, or it leaves the magic number in the
descriptor block. -/
theorem Mounted.write_quiet_or (h : Mounted (view s)) (env : Env) (hp : AllocatedDir s r.parent) :
    (Quiet env s (.write r) ∧ (Ext2.write env s r).2 = s) ∨
      ¬ Quiet env s (.write r) ∧ HasMagic ((Ext2.write env s r).2.disk bgdtLba) := by
  rcases h.settled.write_writes env h.magic hp with
    hquiet | ⟨hf, n, P, x, s₃, hst, -, hmagic, hentry⟩
  · exact Or.inl hquiet
  · have hd : ((view s₃).inode r.parent).isDir = true := by
      rw [hst.inode_ne (hst.parent_ne hp)]
      exact hp.2
    have hs₃ := h.settled.stored hst (isSlot_of_isDir hp.2)
    refine Or.inr ⟨?_, hentry.hasMagic hs₃ hd hmagic⟩
    rintro (hne | hno)
    · exact hne hf
    · rcases hno with h0 | hall
      · exact hst.count h0
      · have hu := hst.unused
        rw [hall n hst.slot.1 hst.slot.2] at hu
        cases hu

theorem Mounted.delete_quiet_or (h : Mounted (view s)) (env : Env) (hp : AllocatedDir s r.parent) :
    (Quiet env s (.delete r) ∧ (Ext2.delete env s r).2 = s) ∨
      ¬ Quiet env s (.delete r) ∧ HasMagic ((Ext2.delete env s r).2.disk bgdtLba) := by
  have hslot : IsSlot r.parent := isSlot_of_isDir hp.2
  have houtcome := h.settled.delete_outcome env hp
  rcases h.settled.delete_writes env h.magic hp with
    ⟨code, hcode, hres⟩ | ⟨hcode, e, b, buf, s₁, hrem, -, -, -, -, hmagic⟩
  · refine Or.inl ⟨?_, by rw [hres]⟩
    rcases houtcome with ⟨hname, -⟩ | ⟨-, ⟨hf, -⟩ | ⟨e, he, -, hf, hdel⟩⟩
    · exact hname.imp_right Or.inl
    · exact Or.inr (Or.inr (Or.inl hf))
    · have hread := h.settled.readInode env (h.settled.target_slot hp.2 he)
      refine Or.inr (Or.inr (Or.inr ?_))
      rw [hf]
      refine ⟨_, hread, ?_⟩
      rw [hres] at hdel
      cases hdel with
      | kind hkind => exact Or.inl hkind
      | full _ hdir hfull => exact Or.inr ⟨hdir, hfull⟩
      | removed => exact absurd rfl hcode
  · refine Or.inr ⟨?_, hmagic⟩
    rintro (hnull | hlen | hrefused)
    · rcases houtcome with ⟨-, hres⟩ | ⟨hname, -⟩
      · rw [hres] at hcode
        exact absurd hcode (show (-1 : ℤ) ≠ 0 by decide)
      · exact hname (Or.inl hnull)
    · exact hrem.name hlen
    · exact hrem.not_refused h.settled hslot hrefused

theorem Mounted.quiet_or (h : Mounted (view s)) (env : Env) (hc : OnDirectory s c) :
    (Quiet env s c ∧ (c.run env s).2 = s) ∨
      ¬ Quiet env s c ∧ HasMagic ((c.run env s).2.disk bgdtLba) := by
  cases c with
  | write r => exact h.write_quiet_or env hc
  | delete r => exact h.delete_quiet_or env hc

/-! ## Every run -/

/-- The states that quiet calls on directories reach from a fresh file system. -/
def QuietRun (s : Fs) : Prop :=
  ∃ env s₀, Relation.ReflTransGen
    (fun s s' => ∃ env c, OnDirectory s c ∧ Quiet env s c ∧ (c.run env s).2 = s')
    (createExt2 env s₀) s

/-- The first call that is not refused leaves the magic number behind for good. -/
theorem quietRun_or (h : Reachable OnDirectory s) : QuietRun s ∨ HasMagic (s.disk bgdtLba) := by
  obtain ⟨env₀, s₀, hrun⟩ := h
  induction hrun with
  | refl => exact Or.inl ⟨env₀, s₀, .refl⟩
  | tail hrun hstep ih =>
      obtain ⟨env, c, hc, rfl⟩ := hstep
      have hm : Mounted (view _) := reachable_mounted ⟨env₀, s₀, hrun⟩
      rcases hm.quiet_or env hc with ⟨hquiet, hsame⟩ | ⟨-, hmagic⟩
      · rcases ih with ⟨env₁, s₁, hrun₁⟩ | hmagic
        · exact Or.inl ⟨env₁, s₁, hrun₁.tail ⟨env, c, hc, hquiet, rfl⟩⟩
        · right
          rwa [hsame]
      · exact Or.inr hmagic

theorem QuietRun.transparent (h : QuietRun s) : Transparent s := by
  obtain ⟨env₀, s₀, hrun⟩ := h
  have hinv : Reachable OnDirectory s ∧ Transparent s := by
    induction hrun with
    | refl => exact ⟨⟨env₀, s₀, .refl⟩, transparent_fresh env₀ s₀⟩
    | tail _ hstep ih =>
        obtain ⟨env, c, hc, hquiet, rfl⟩ := hstep
        obtain ⟨hreach, htrans⟩ := ih
        refine ⟨hreach.step env hc, ?_⟩
        rcases (reachable_mounted hreach).quiet_or env hc with ⟨-, hsame⟩ | ⟨hloud, -⟩
        · rwa [hsame]
        · exact absurd hquiet hloud
  exact hinv.2

/-- **Mounting the disk again is transparent** as long as every call since
`create_ext2` has been refused, and never again after that. -/
theorem remount_transparent_iff (h : Reachable OnDirectory s) :
    (Transparent s ↔ QuietRun s) ∧
    (∀ env c, OnDirectory s c →
      (Transparent (c.run env s).2 ↔ Transparent s ∧ Quiet env s c)) ∧
    (Transparent s → ∀ env m, m.disk = s.disk → m.log = s.log →
      initializeFilesystemExt2 env m = s) := by
  have hm := reachable_mounted h
  refine ⟨⟨fun htrans => ?_, fun hquiet => hquiet.transparent⟩, ?_, ?_⟩
  · rcases quietRun_or h with hquiet | hmagic
    · exact hquiet
    · exact absurd htrans (hm.not_transparent hmagic)
  · intro env c hc
    rcases hm.quiet_or env hc with ⟨hquiet, hsame⟩ | ⟨hloud, hmagic⟩
    · rw [hsame]
      exact ⟨fun htrans => ⟨htrans, hquiet⟩, fun hboth => hboth.1⟩
    · have hm' : Mounted (view (c.run env s).2) := reachable_mounted (h.step env hc)
      exact ⟨fun htrans => absurd htrans (hm'.not_transparent hmagic),
        fun hboth => absurd hboth.2 hloud⟩
  · intro htrans env m hdisk hlog
    exact htrans.same hm.settled.sound.initialized env hdisk hlog

theorem remount_fresh :
    initializeFilesystemExt2 .zero { poweredOff freshFs.disk with log := freshFs.log } =
      freshFs := by
  obtain ⟨htrans, -, hsame⟩ := remount_transparent_iff (Reachable.fresh OnDirectory)
  exact hsame (htrans.mpr ⟨.zero, .blank, .refl⟩) .zero _ rfl rfl

/-- One small file, and the second descriptor is loaded from what the superblock
has left in the buffer. -/
theorem remount_small_file :
    Reachable OnDirectory (smallFile.run .zero freshFs).2 ∧
      ¬ Transparent (smallFile.run .zero freshFs).2 := by
  have hdir : AllocatedDir freshFs 2 := by decide +kernel
  have hmagic : HasMagic ((smallFile.run .zero freshFs).2.disk bgdtLba) := by
    unfold HasMagic
    decide +kernel
  have hreach : Reachable OnDirectory (smallFile.run .zero freshFs).2 :=
    (Reachable.fresh OnDirectory).step .zero hdir
  exact ⟨hreach, (reachable_mounted hreach).not_transparent hmagic⟩

end RendangOS.Ext2
