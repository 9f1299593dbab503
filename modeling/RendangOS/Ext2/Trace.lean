import RendangOS.Ext2.Invariant
import RendangOS.Lib.Journal

/-!
# The block writes of a call

`write_blocks` is called one block at a time, and the power can be lost after
every call of it. `Emits I s s'` says that the code leads from `s` to `s'` and
that the disk satisfies `I` before, between and after its writes. What a cut
disk keeps of the disk `d₀` at the start is `Keeps d₀ t B`: everything but inode
`t` and the blocks of `B`.
-/

namespace RendangOS.Ext2

open Image Journal

/-- A machine that has lost its memory and kept its disk. -/
def poweredOff (disk : ℕ → Block) : Fs := { Fs.blank with disk := disk }

theorem blockUsed_poweredOff (s : Fs) (b : ℕ) :
    blockUsed (poweredOff s.disk) b = blockUsed s b := by
  unfold blockUsed
  rfl

theorem inodeUsed_poweredOff (s : Fs) (n : ℕ) :
    inodeUsed (poweredOff s.disk) n = inodeUsed s n := by
  unfold inodeUsed
  rfl

theorem inodeAt_poweredOff (s : Fs) (n : ℕ) : inodeAt (poweredOff s.disk) n = inodeAt s n := by
  unfold inodeAt
  rfl

/-- What no call changes in memory. -/
structure SameMount (s s' : Fs) : Prop where
  initialized : s'.initialized = s.initialized
  magic : s'.superblock.s_magic = s.superblock.s_magic
  tables : (view s').tables = (view s).tables
  others : ∀ k, k ≠ 0 → s'.bgdt[k]? = s.bgdt[k]?

structure Emits (I : (ℕ → Block) → Prop) (s s' : Fs) : Prop where
  mount : SameMount s s'
  journal : ∃ ws, s'.log = ws ++ s.log ∧ s'.disk = replay s.disk ws ∧ Cuts I s.disk ws

variable {I J : (ℕ → Block) → Prop} {env : Env} {s s' s'' : Fs}

theorem SameMount.refl (s : Fs) : SameMount s s := ⟨rfl, rfl, rfl, fun _ _ => rfl⟩

theorem SameMount.trans (h : SameMount s s') (h' : SameMount s' s'') : SameMount s s'' :=
  ⟨h'.initialized.trans h.initialized, h'.magic.trans h.magic, h'.tables.trans h.tables,
    fun k hk => (h'.others k hk).trans (h.others k hk)⟩

/-- New counters in memory. -/
theorem sameMount_counters {sb : EXT2Superblock} {g : EXT2BlockGroupDescriptor}
    (hsb : sb.s_magic = s.superblock.s_magic)
    (hg : g.bg_inode_table = s.group0.bg_inode_table) :
    SameMount s (({ s with superblock := sb } : Fs).setGroup0 g) where
  initialized := rfl
  magic := hsb
  tables := Volume.map_tables_set s.bgdt g hg
  others := fun k hk => by
    change (s.bgdt.set 0 g)[k]? = s.bgdt[k]?
    exact Vector.getElem?_set_ne (Nat.zero_lt_succ 7) (Ne.symm hk)

namespace Emits

theorem refl (h : I s.disk) : Emits I s s :=
  ⟨.refl s, [], rfl, rfl, .nil h⟩

theorem last (h : Emits I s s') : I s'.disk := by
  obtain ⟨-, ws, -, hdisk, hcuts⟩ := h
  rw [hdisk]
  exact hcuts.last

theorem trans (h : Emits I s s') (h' : Emits I s' s'') : Emits I s s'' := by
  obtain ⟨hm, ws, hlog, hdisk, hcuts⟩ := h
  obtain ⟨hm', ws', hlog', hdisk', hcuts'⟩ := h'
  refine ⟨hm.trans hm', ws' ++ ws, ?_, ?_, ?_⟩
  · rw [hlog', hlog, List.append_assoc]
  · rw [hdisk', hdisk, replay_append]
  · exact hcuts.append (hdisk ▸ hcuts')

/-- A change in memory alone. -/
theorem memory (h : Emits I s s') (hm : SameMount s' s'') (hdisk : s''.disk = s'.disk)
    (hlog : s''.log = s'.log) : Emits I s s'' := by
  obtain ⟨hm', ws, hlog', hdisk', hcuts⟩ := h
  exact ⟨hm'.trans hm, ws, hlog.trans hlog', hdisk.trans hdisk', hcuts⟩

theorem mono (h : Emits I s s') (hIJ : ∀ d, I d → J d) : Emits J s s' := by
  obtain ⟨hm, ws, hlog, hdisk, hcuts⟩ := h
  exact ⟨hm, ws, hlog, hdisk, hcuts.mono hIJ⟩

end Emits

theorem disk_writeBlocks_update (s : Fs) (buf : Block) {lba : ℕ} (h : lba < 2 ^ 28) :
    (writeBlocks s buf lba).disk = Function.update s.disk lba buf := by
  funext l
  rw [disk_writeBlocks s buf h, Function.update_apply]

/-- One block. -/
theorem emits_writeBlocks {buf : Block} {lba : ℕ} (h : I s.disk) (hlba : lba < 2 ^ 28)
    (h' : I (Function.update s.disk lba buf)) : Emits I s (writeBlocks s buf lba) := by
  refine ⟨⟨rfl, rfl, rfl, fun _ _ => rfl⟩, [(lba, buf)], ?_, ?_, (Cuts.nil h).cons h'⟩
  · change (ataAddress lba, buf) :: s.log = _
    rw [ataAddress_of_lt hlba]
    rfl
  · exact disk_writeBlocks_update s buf hlba

/-! ## What a cut disk keeps -/

/-- The group descriptor block carries the magic number of the superblock, in
the bytes behind the first descriptor. -/
def HasMagic (buf : Block) : Prop := buf.extractLsb' 448 16 = ext2SuperMagic

structure Keeps (d₀ : ℕ → Block) (t : ℕ) (B : Set ℕ) (d : ℕ → Block) : Prop where
  blocks : ∀ b, b ∉ B → blockUsed (poweredOff d₀) b = true → blockUsed (poweredOff d) b = true
  inodes : ∀ m, m ≠ t → inodeUsed (poweredOff d₀) m = true → inodeUsed (poweredOff d) m = true
  slots : ∀ m, m ≠ t → inodeAt (poweredOff d) m = inodeAt (poweredOff d₀) m
  data : ∀ b, 21 ≤ b → b ∉ B → blockUsed (poweredOff d₀) b = true → d b = d₀ b
  group : d bgdtLba = d₀ bgdtLba ∨ HasMagic (d bgdtLba)

variable {d₀ d : ℕ → Block} {t : ℕ} {B : Set ℕ} {buf : Block}

theorem Keeps.refl (d₀ : ℕ → Block) (t : ℕ) (B : Set ℕ) : Keeps d₀ t B d₀ :=
  ⟨fun _ _ h => h, fun _ _ h => h, fun _ _ => rfl, fun _ _ _ _ => rfl, Or.inl rfl⟩

namespace Keeps

/-- The places a write leaves alone. -/
theorem inodeAt_update {l : ℕ} (hl : l < 5 ∨ 21 ≤ l) (m : ℕ) :
    inodeAt (poweredOff (Function.update d l buf)) m = inodeAt (poweredOff d) m := by
  apply congrFun
  apply inodeAt_congr
  intro k hlo hhi
  exact Function.update_of_ne (by omega) ..

theorem superblock (h : Keeps d₀ t B d) : Keeps d₀ t B (Function.update d superblockLba buf) where
  blocks := fun b hb hu => h.blocks b hb hu
  inodes := fun m hm hu => h.inodes m hm hu
  slots := fun m hm => (inodeAt_update (Or.inl (by decide)) m).trans (h.slots m hm)
  data := fun b hlo hb hu =>
    (Function.update_of_ne (show b ≠ 1 by omega) ..).trans (h.data b hlo hb hu)
  group := h.group

theorem descriptor (h : Keeps d₀ t B d) (hmagic : HasMagic buf) :
    Keeps d₀ t B (Function.update d bgdtLba buf) where
  blocks := fun b hb hu => h.blocks b hb hu
  inodes := fun m hm hu => h.inodes m hm hu
  slots := fun m hm => (inodeAt_update (Or.inl (by decide)) m).trans (h.slots m hm)
  data := fun b hlo hb hu =>
    (Function.update_of_ne (show b ≠ 2 by omega) ..).trans (h.data b hlo hb hu)
  group := Or.inr (by rwa [Function.update_self])

theorem blockBitmap (h : Keeps d₀ t B d)
    (hbits : ∀ b, b ∉ B → blockUsed (poweredOff d) b = true → buf.getLsbD b = true) :
    Keeps d₀ t B (Function.update d blockBitmapLba buf) where
  blocks := fun b hb hu => hbits b hb (h.blocks b hb hu)
  inodes := fun m hm hu => h.inodes m hm hu
  slots := fun m hm => (inodeAt_update (Or.inl (by decide)) m).trans (h.slots m hm)
  data := fun b hlo hb hu =>
    (Function.update_of_ne (show b ≠ 3 by omega) ..).trans (h.data b hlo hb hu)
  group := h.group

theorem inodeBitmap (h : Keeps d₀ t B d)
    (hbits : ∀ m, m ≠ t → inodeUsed (poweredOff d) m = true → buf.getLsbD (m - 1) = true) :
    Keeps d₀ t B (Function.update d inodeBitmapLba buf) where
  blocks := fun b hb hu => h.blocks b hb hu
  inodes := fun m hm hu => by
    have hold := h.inodes m hm hu
    have hnew := hbits m hm hold
    unfold inodeUsed at hold ⊢
    rw [Bool.and_eq_true] at hold ⊢
    exact ⟨hold.1, hnew⟩
  slots := fun m hm => (inodeAt_update (Or.inl (by decide)) m).trans (h.slots m hm)
  data := fun b hlo hb hu =>
    (Function.update_of_ne (show b ≠ 4 by omega) ..).trans (h.data b hlo hb hu)
  group := h.group

/-- A block of the inode table in which only slot `t` has changed. -/
theorem inodeTable (h : Keeps d₀ t B d) {l : ℕ} (hl : 5 ≤ l ∧ l < 21)
    (hslots : ∀ m, m ≠ t →
      inodeAt (poweredOff (Function.update d l buf)) m = inodeAt (poweredOff d) m) :
    Keeps d₀ t B (Function.update d l buf) where
  blocks := fun b hb hu => by
    have hne : blockBitmapLba ≠ l := by simp; omega
    change (Function.update d l buf blockBitmapLba).getLsbD b = true
    rw [Function.update_of_ne hne]
    exact h.blocks b hb hu
  inodes := fun m hm hu => by
    have hne : inodeBitmapLba ≠ l := by simp; omega
    change (m != 0 && (Function.update d l buf inodeBitmapLba).getLsbD (m - 1)) = true
    rw [Function.update_of_ne hne]
    exact h.inodes m hm hu
  slots := fun m hm => (hslots m hm).trans (h.slots m hm)
  data := fun b hlo hb hu =>
    (Function.update_of_ne (show b ≠ l by omega) ..).trans (h.data b hlo hb hu)
  group := by
    have hne : bgdtLba ≠ l := by simp; omega
    rw [Function.update_of_ne hne]
    exact h.group

/-- A block behind the inode table that was free, or is one of `B`. -/
theorem dataBlock (h : Keeps d₀ t B d) {c : ℕ} (hc : 21 ≤ c)
    (hfree : c ∈ B ∨ blockUsed (poweredOff d₀) c = false) :
    Keeps d₀ t B (Function.update d c buf) where
  blocks := fun b hb hu => by
    have hne : blockBitmapLba ≠ c := by simp; omega
    change (Function.update d c buf blockBitmapLba).getLsbD b = true
    rw [Function.update_of_ne hne]
    exact h.blocks b hb hu
  inodes := fun m hm hu => by
    have hne : inodeBitmapLba ≠ c := by simp; omega
    change (m != 0 && (Function.update d c buf inodeBitmapLba).getLsbD (m - 1)) = true
    rw [Function.update_of_ne hne]
    exact h.inodes m hm hu
  slots := fun m hm => (inodeAt_update (Or.inr hc) m).trans (h.slots m hm)
  data := fun b hlo hb hu => by
    have hne : b ≠ c := by
      rintro rfl
      rcases hfree with hmem | hfree
      · exact hb hmem
      · rw [hfree] at hu
        cases hu
    exact (Function.update_of_ne hne ..).trans (h.data b hlo hb hu)
  group := by
    have hne : bgdtLba ≠ c := by simp; omega
    rw [Function.update_of_ne hne]
    exact h.group

end Keeps

/-! ## Bitmaps and counters -/

/-- A state whose disk keeps `d₀`, with the magic number in memory. -/
structure Ready (d₀ : ℕ → Block) (t : ℕ) (B : Set ℕ) (s : Fs) : Prop where
  keeps : Keeps d₀ t B s.disk
  magic : s.superblock.s_magic = ext2SuperMagic

theorem Emits.ready (h : Emits (Keeps d₀ t B) s s') (hr : Ready d₀ t B s) : Ready d₀ t B s' :=
  ⟨h.last, h.mount.magic.trans hr.magic⟩

/-- The two structures share one buffer, so behind the descriptor it still holds
the superblock. -/
theorem hasMagic_metaBuf (junk : Block) {sb : EXT2Superblock} (g : EXT2BlockGroupDescriptor)
    (h : sb.s_magic = ext2SuperMagic) :
    HasMagic (splice (splice junk 0 sb.image) 0 g.image) := by
  have hfield : sb.image.extractLsb' 448 16 = sb.s_magic :=
    congrArg EXT2Superblock.s_magic sb.ofImage_image
  unfold HasMagic
  rw [extract_splice_ne _ _ (Or.inr (by decide)), extract_splice_sub _ _ (by decide) (by decide)
    (by decide)]
  exact hfield.trans h

namespace Ready

theorem syncMetadata (hr : Ready d₀ t B s) :
    Emits (Keeps d₀ t B) s (syncMetadata env s) := by
  have hfirst : Emits (Keeps d₀ t B) s
      (writeBlocks s (splice (env.junk s.log.length) 0 s.superblock.image) superblockLba) :=
    emits_writeBlocks hr.keeps (by decide) hr.keeps.superblock
  apply hfirst.trans
  apply emits_writeBlocks hfirst.last (by decide)
  exact hfirst.last.descriptor (hasMagic_metaBuf _ _ hr.magic)

/-- A bitmap, then the counters in memory, then their copies on disk. -/
theorem commit {l : ℕ} (hr : Ready d₀ t B s) (hl : l < 2 ^ 28)
    (hw : Keeps d₀ t B (Function.update s.disk l buf)) {sb : EXT2Superblock}
    {g : EXT2BlockGroupDescriptor} (hsb : sb.s_magic = s.superblock.s_magic)
    (hg : g.bg_inode_table = s.group0.bg_inode_table) :
    Emits (Keeps d₀ t B) s (Ext2.syncMetadata env
      (({ writeBlocks s buf l with superblock := sb } : Fs).setGroup0 g)) := by
  have hwrite : Emits (Keeps d₀ t B) s (writeBlocks s buf l) :=
    emits_writeBlocks hr.keeps hl hw
  have hmem : Emits (Keeps d₀ t B) s
      (({ writeBlocks s buf l with superblock := sb } : Fs).setGroup0 g) :=
    hwrite.memory (sameMount_counters hsb hg) rfl rfl
  exact hmem.trans (hmem.ready hr).syncMetadata

theorem takeBlock (hr : Ready d₀ t B s) {i : ℕ} (hi : i < 4096) :
    Emits (Keeps d₀ t B) s (takeBlock env s i) := by
  have hw : Keeps d₀ t B
      (Function.update s.disk blockBitmapLba (setBit (readBlocks s blockBitmapLba) i)) := by
    apply hr.keeps.blockBitmap
    intro b _ hu
    rw [getLsbD_setBit _ (by omega), Bool.or_eq_true]
    exact Or.inl hu
  exact hr.commit (by decide) hw rfl rfl

theorem takeNode (hr : Ready d₀ t B s) {i : ℕ} (hi : i < 4096) :
    Emits (Keeps d₀ t B) s (takeNode env s i) := by
  have hw : Keeps d₀ t B
      (Function.update s.disk inodeBitmapLba (setBit (readBlocks s inodeBitmapLba) i)) := by
    apply hr.keeps.inodeBitmap
    intro m _ hu
    unfold inodeUsed at hu
    rw [Bool.and_eq_true] at hu
    rw [getLsbD_setBit _ (by omega), Bool.or_eq_true]
    exact Or.inl hu.2
  exact hr.commit (by decide) hw rfl rfl

theorem releaseNode (hr : Ready d₀ t B s) (ht : IsSlot t) :
    Emits (Keeps d₀ t B) s (releaseNode env s t) := by
  have h1 := ht.1
  have h64 : t ≤ 64 := ht.2
  have hw : Keeps d₀ t B
      (Function.update s.disk inodeBitmapLba (clearBit (readBlocks s inodeBitmapLba) (t - 1))) := by
    apply hr.keeps.inodeBitmap
    intro m hm hu
    unfold inodeUsed at hu
    rw [Bool.and_eq_true, bne_iff_ne] at hu
    have hbit : m - 1 ≠ t - 1 := by omega
    rw [getLsbD_clearBit _ (by omega), Bool.and_eq_true]
    exact ⟨hu.2, by simp [hbit]⟩
  exact hr.commit (by decide) hw rfl rfl

theorem deallocateSingleBlock (hr : Ready d₀ t B s) {b : ℕ} (hb : b ≠ 0 → b ∈ B ∧ b < 4096) :
    Emits (Keeps d₀ t B) s (deallocateSingleBlock env s b) := by
  unfold Ext2.deallocateSingleBlock
  split
  · exact .refl hr.keeps
  · next h0 =>
    obtain ⟨hmem, hlt⟩ := hb h0
    dsimp only
    split
    · exact .refl hr.keeps
    · have hw : Keeps d₀ t B
          (Function.update s.disk blockBitmapLba (clearBit (readBlocks s blockBitmapLba) b)) := by
        apply hr.keeps.blockBitmap
        intro c hc hu
        have hne : c ≠ b := fun he => hc (he ▸ hmem)
        rw [getLsbD_clearBit _ (by omega), Bool.and_eq_true]
        exact ⟨hu, by simp [hne]⟩
      exact hr.commit (by decide) hw rfl rfl

theorem deallocatePointers {bs : List ℕ} (env : Env) (hr : Ready d₀ t B s)
    (hbs : ∀ b ∈ bs, b ≠ 0 → b ∈ B ∧ b < 4096) :
    Emits (Keeps d₀ t B) s (deallocatePointers env s bs) := by
  induction bs generalizing s with
  | nil => exact .refl hr.keeps
  | cons b bs ih =>
      have hstep : Emits (Keeps d₀ t B) s
          (if b ≠ 0 then Ext2.deallocateSingleBlock env s b else s) := by
        split
        · exact hr.deallocateSingleBlock (hbs b List.mem_cons_self)
        · exact .refl hr.keeps
      exact hstep.trans (ih (hstep.ready hr) fun c hc => hbs c (List.mem_cons_of_mem b hc))

theorem writeInode {p : ℕ} (hr : Ready d₀ t B s) (ha : Addresses env s p t) (x : EXT2Inode) :
    Emits (Keeps d₀ t B) s (writeInode env s p x) := by
  have hslot := ha.slot
  have hview := ha.writeInode x
  unfold Ext2.writeInode at hview ⊢
  rw [if_neg ha.ne_zero] at hview ⊢
  dsimp only at hview ⊢
  rw [ha.lba] at hview ⊢
  generalize splice (readBlocks s (5 + (t - 1) / 4)) (8 * inodeOffset p) x.image = buf at hview ⊢
  apply emits_writeBlocks hr.keeps (by omega)
  apply hr.keeps.inodeTable (by omega)
  intro m hm
  have hinode := congrFun (congrArg Volume.inode hview) m
  change inodeAt _ m = Function.update (inodeAt s) t x m at hinode
  rw [Function.update_of_ne hm] at hinode
  rw [← disk_writeBlocks_update s buf (by omega), inodeAt_poweredOff, inodeAt_poweredOff]
  exact hinode

end Ready

/-! ## Taking and filling blocks -/

/-- Block `b` was free on `d₀`, or is one of `B`, and lies behind the inode table. -/
def Writable (d₀ : ℕ → Block) (B : Set ℕ) (b : ℕ) : Prop :=
  21 ≤ b ∧ b < 256 ∧ (b ∈ B ∨ blockUsed (poweredOff d₀) b = false)

/-- The blocks in front of the root directory are in use on `d₀`, and none is in `B`. -/
def MetaKept (d₀ : ℕ → Block) (B : Set ℕ) : Prop :=
  ∀ b < 21, b ∉ B ∧ blockUsed (poweredOff d₀) b = true

namespace Ready

theorem dataBlock (hr : Ready d₀ t B s) {b : ℕ} (hb : Writable d₀ B b) (buf : Block) :
    Emits (Keeps d₀ t B) s (writeBlocks s buf b) := by
  obtain ⟨hge, hlt, hfree⟩ := hb
  exact emits_writeBlocks hr.keeps (by omega) (hr.keeps.dataBlock hge hfree)

/-- An allocation returns zero, or a block that may be written. -/
theorem allocateBlock (env : Env) (hr : Ready d₀ t B s) (hm : MetaKept d₀ B) :
    Emits (Keeps d₀ t B) s (allocateBlock env s).2 ∧
      ((allocateBlock env s).1 ≠ 0 → Writable d₀ B (allocateBlock env s).1) := by
  unfold Ext2.allocateBlock
  split
  · exact ⟨.refl hr.keeps, fun h0 => absurd rfl h0⟩
  · rw [firstClear_eq]
    rcases Bitmap.find_clear (fun i => (readBlocks s blockBitmapLba).getLsbD i) blocksPerGroup with
      ⟨hfind, -⟩ | ⟨b, hb, hfind, hclear, -⟩
    · rw [hfind]
      exact ⟨.refl hr.keeps, fun h0 => absurd rfl h0⟩
    · rw [hfind]
      have hlt : b < 256 := hb
      refine ⟨hr.takeBlock (by omega), fun _ => ?_⟩
      -- what is free now was free before, unless it is one of `B`
      have hfree : b ∈ B ∨ blockUsed (poweredOff d₀) b = false := by
        by_contra hnot
        push Not at hnot
        have hused := hr.keeps.blocks b hnot.1 (by simpa using hnot.2)
        rw [blockUsed_poweredOff] at hused
        exact absurd (hused.symm.trans hclear) (by decide)
      refine ⟨?_, hlt, hfree⟩
      change 21 ≤ b
      by_contra hlow
      obtain ⟨hnot, hused⟩ := hm b (by omega)
      rcases hfree with hmem | hfree
      · exact hnot hmem
      · rw [hfree] at hused
        cases hused

theorem writeDirect (env : Env) (hr : Ready d₀ t B s) (hm : MetaKept d₀ B) (r : Request)
    (is : List ℕ) (x : EXT2Inode) : Emits (Keeps d₀ t B) s (writeDirect env r is x s).2 := by
  induction is generalizing s x with
  | nil => exact .refl hr.keeps
  | cons i is ih =>
      obtain ⟨halloc, hblock⟩ := hr.allocateBlock env hm
      unfold Ext2.writeDirect
      dsimp only
      split
      · exact halloc
      · next h0 =>
        have hwrite := halloc.trans ((halloc.ready hr).dataBlock (hblock h0) (Ext2.dataBlock r i))
        exact hwrite.trans (ih (hwrite.ready hr) _)

theorem writeIndirect (env : Env) (hr : Ready d₀ t B s) (hm : MetaKept d₀ B) (r : Request)
    (is : List ℕ) (x : EXT2Inode) (table : Block) :
    Emits (Keeps d₀ t B) s (writeIndirect env r is x table s).2.2 := by
  induction is generalizing s x table with
  | nil => exact .refl hr.keeps
  | cons i is ih =>
      obtain ⟨halloc, hblock⟩ := hr.allocateBlock env hm
      unfold Ext2.writeIndirect
      dsimp only
      split
      · exact halloc
      · next h0 =>
        have hwrite := halloc.trans ((halloc.ready hr).dataBlock (hblock h0) (Ext2.dataBlock r i))
        exact hwrite.trans (ih (hwrite.ready hr) _ _)

theorem writeFile (env : Env) (hr : Ready d₀ t B s) (hm : MetaKept d₀ B) (r : Request)
    (x : EXT2Inode) : Emits (Keeps d₀ t B) s (writeFile env r x s).2 := by
  unfold Ext2.writeFile
  have hdirect := hr.writeDirect env hm r (List.range (min (blocksNeeded r) 12)) x
  generalize Ext2.writeDirect env r (List.range (min (blocksNeeded r) 12)) x s = d at hdirect ⊢
  obtain ⟨halloc, hblock⟩ := (hdirect.ready hr).allocateBlock env hm
  dsimp only
  split
  · split
    · exact hdirect.trans halloc
    · next h0 =>
      have htable := hdirect.trans halloc
      have hfill := htable.trans ((htable.ready hr).writeIndirect env hm r
        (List.range' 12 (min (blocksNeeded r - 12) 128))
        (d.1.setBlock 12 (Ext2.allocateBlock env d.2).1).countBlock 0)
      exact hfill.trans ((hfill.ready hr).dataBlock (hblock h0) _)
  · exact hdirect

theorem writeDir (env : Env) (hr : Ready d₀ t B s) (hm : MetaKept d₀ B) (r : Request) (n : ℕ)
    (x : EXT2Inode) : Emits (Keeps d₀ t B) s (writeDir env r n x s).2 := by
  obtain ⟨halloc, hblock⟩ := hr.allocateBlock env hm
  unfold Ext2.writeDir
  dsimp only
  split
  · exact halloc
  · next h0 => exact halloc.trans ((halloc.ready hr).dataBlock (hblock h0) _)

theorem writeContent (env : Env) (hr : Ready d₀ t B s) (hm : MetaKept d₀ B) (r : Request) (n : ℕ) :
    Emits (Keeps d₀ t B) s (writeContent env r n s).2 := by
  unfold Ext2.writeContent
  split
  · exact hr.writeFile env hm r _
  · split
    · exact hr.writeDir env hm r n _
    · exact .refl hr.keeps

/-! ## Giving back an inode -/

/-- The releases of `deallocate_node`, with the table read in the middle of them. -/
theorem deallocateNode {n : ℕ} (env : Env) (hr : Ready d₀ n B s)
    (hinit : (view s).initialized = true) (ht : (view s).tables = groupTables) (hn : IsSlot n)
    (hbs : ∀ b ∈ ((view s).inode n).pointers (view s).data, b ≠ 0 → b ∈ B ∧ 21 ≤ b ∧ b < 256) :
    Emits (Keeps d₀ n B) s (deallocateNode env s n) ∧
      HasMagic ((Ext2.deallocateNode env s n).disk bgdtLba) := by
  have hguard : ¬ (s.initialized = false ∨ n = 0) := by
    rintro (h | h)
    · exact absurd (h ▸ hinit : (false : Bool) = true) (by decide)
    · exact absurd h hn.ne_zero
  have hwide : ∀ b ∈ ((view s).inode n).pointers (view s).data, b ≠ 0 → b ∈ B ∧ b < 4096 := by
    intro b hb h0
    obtain ⟨hmem, -, hlt⟩ := hbs b hb h0
    exact ⟨hmem, by omega⟩
  have ha : Addresses env s n n := addresses_inTable_slot ht hn
  unfold Ext2.deallocateNode
  rw [if_neg hguard, ha.readInode]
  generalize (view s).inode n = x at hbs hwide
  dsimp only
  unfold EXT2Inode.pointers at hbs hwide
  -- the direct blocks
  have hdirect := hr.deallocatePointers env fun b hb =>
    hwide b (List.mem_append_left _ hb)
  have hview := view_deallocatePointers env s ((List.range 12).map x.block) fun b hb => by
    by_cases h0 : b = 0
    · omega
    · exact (hwide b (List.mem_append_left _ hb) h0).2
  generalize Ext2.deallocatePointers env s ((List.range 12).map x.block) = s₁ at hdirect hview ⊢
  -- the table, if there is one
  have htable : Emits (Keeps d₀ n B) s
      (if x.block 12 ≠ 0 then
        Ext2.deallocateSingleBlock env
          (Ext2.deallocatePointers env s₁
            ((List.range 128).map (tableEntry (readBlocks s₁ (x.block 12))))) (x.block 12)
      else s₁) := by
    split
    · next h0 =>
      rw [if_pos h0] at hbs hwide
      obtain ⟨hmem, hge, hlt⟩ := hbs (x.block 12) (by simp) h0
      have hread : readBlocks s₁ (x.block 12) = (view s).data (x.block 12) := by
        rw [readBlocks_data s₁ hge (by omega), hview, Volume.data_releaseBlocks]
      rw [hread]
      have hinner := hdirect.trans ((hdirect.ready hr).deallocatePointers env fun b hb =>
        hwide b (List.mem_append_right _ (List.mem_append_left _ hb)))
      exact hinner.trans ((hinner.ready hr).deallocateSingleBlock fun _ => ⟨hmem, by omega⟩)
    · exact hdirect
  generalize (if x.block 12 ≠ 0 then
      Ext2.deallocateSingleBlock env
        (Ext2.deallocatePointers env s₁
          ((List.range 128).map (tableEntry (readBlocks s₁ (x.block 12))))) (x.block 12)
    else s₁) = s₂ at htable ⊢
  have ha₂ : Addresses env s₂ n n := addresses_inTable_slot (htable.mount.tables.trans ht) hn
  have hzero := htable.trans ((htable.ready hr).writeInode ha₂ EXT2Inode.zero)
  have hready := hzero.ready hr
  exact ⟨hzero.trans (hready.releaseNode hn), hasMagic_metaBuf _ _ hready.magic⟩

end Ready

end RendangOS.Ext2
