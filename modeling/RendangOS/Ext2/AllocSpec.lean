import RendangOS.Ext2.Volume
import RendangOS.Lib.Bitmap

/-!
# Allocation on the volume

What the allocation and release functions of `ext2.c` do to the volume. An
allocation takes the least clear bit of a bitmap or leaves the state as it is;
a release gives back every block of a list. While the free counters agree with
the bitmaps, an allocation fails exactly when no bit is clear.
-/

namespace RendangOS.Ext2

open Image Bitmap

theorem readBlocks_data (s : Fs) {b : ℕ} (h : 21 ≤ b) (hb : b < 2 ^ 28) :
    readBlocks s b = (view s).data b := by
  rw [readBlocks_of_lt s hb, view_data s h]

/-! ## One allocation -/

theorem firstClear_eq (bitmap : Block) (n : ℕ) :
    firstClear bitmap n = (List.range n).find? fun i => !bitmap.getLsbD i := by
  unfold firstClear
  congr 1
  funext i
  cases h : bitmap.getLsbD i with
  | false => simp [(testBit_eq_zero bitmap i).mpr h]
  | true =>
      have hne : testBit bitmap i ≠ 0 := fun hz => by
        simp [(testBit_eq_zero bitmap i).mp hz] at h
      simpa using hne

/-- `allocate_block` takes the least clear block, or nothing when the counter
is zero or every bit is set. -/
theorem allocateBlock_cases (env : Env) (s : Fs) :
    (allocateBlock env s = (0, s) ∧
      ((view s).freeBlocks = 0 ∨ ∀ b < 256, (view s).blockUsed b = true)) ∨
    ∃ b < 256, (view s).blockUsed b = false ∧ (∀ c < b, (view s).blockUsed c = true) ∧
      (view s).freeBlocks ≠ 0 ∧ (allocateBlock env s).1 = b ∧
      view (allocateBlock env s).2 = (view s).takeBlock b := by
  have hcount : (view s).freeBlocks = 0 ↔ s.group0.bg_free_blocks_count = 0 := by
    change s.group0.bg_free_blocks_count.toNat = 0 ↔ _
    exact ⟨fun h => BitVec.eq_of_toNat_eq h, fun h => by rw [h]; rfl⟩
  unfold allocateBlock
  by_cases h0 : s.group0.bg_free_blocks_count = 0
  · rw [if_pos h0]
    exact Or.inl ⟨rfl, Or.inl (hcount.mpr h0)⟩
  · rw [if_neg h0, firstClear_eq]
    rcases find_clear (blockUsed s) 256 with ⟨hfind, hall⟩ | ⟨b, hb, hfind, hclear, hlow⟩
    · change (List.range blocksPerGroup).find? (fun i => !(readBlocks s blockBitmapLba).getLsbD i)
        = none at hfind
      rw [hfind]
      exact Or.inl ⟨rfl, Or.inr hall⟩
    · change (List.range blocksPerGroup).find? (fun i => !(readBlocks s blockBitmapLba).getLsbD i)
        = some b at hfind
      rw [hfind]
      exact Or.inr ⟨b, hb, hclear, hlow, mt hcount.mp h0, rfl, view_takeBlock env s (by omega)⟩

/-- `allocate_node` likewise, on inode numbers. -/
theorem allocateNode_cases (env : Env) (s : Fs) (hs : (view s).initialized = true) :
    (allocateNode env s = (0, s) ∧
      ((view s).freeInodes = 0 ∨ ∀ n, 1 ≤ n → n ≤ 64 → (view s).inodeUsed n = true)) ∨
    ∃ n, 1 ≤ n ∧ n ≤ 64 ∧ (view s).inodeUsed n = false ∧
      (∀ m, 1 ≤ m → m < n → (view s).inodeUsed m = true) ∧
      (view s).freeInodes ≠ 0 ∧ (allocateNode env s).1 = n ∧
      view (allocateNode env s).2 = (view s).takeInode n := by
  have hcount : (view s).freeInodes = 0 ↔ s.group0.bg_free_inodes_count = 0 := by
    change s.group0.bg_free_inodes_count.toNat = 0 ↔ _
    exact ⟨fun h => BitVec.eq_of_toNat_eq h, fun h => by rw [h]; rfl⟩
  have hbit : ∀ n, 1 ≤ n →
      (view s).inodeUsed n = (readBlocks s inodeBitmapLba).getLsbD (n - 1) := by
    intro n hn
    change (n != 0 && (s.disk inodeBitmapLba).getLsbD (n - 1)) = _
    rw [bne_iff_ne.mpr (by omega : n ≠ 0)]
    rfl
  have hinit : ¬ s.initialized = false := by
    change s.initialized = true at hs
    simp [hs]
  unfold allocateNode
  rw [if_neg hinit]
  by_cases h0 : s.group0.bg_free_inodes_count = 0
  · rw [if_pos h0]
    exact Or.inl ⟨rfl, Or.inl (hcount.mpr h0)⟩
  · rw [if_neg h0, firstClear_eq]
    rcases find_clear (fun i => (readBlocks s inodeBitmapLba).getLsbD i) 64 with
      ⟨hfind, hall⟩ | ⟨i, hi, hfind, hclear, hlow⟩
    · rw [show inodesPerGroup = 64 from rfl, hfind]
      refine Or.inl ⟨rfl, Or.inr fun n h1 h2 => ?_⟩
      rw [hbit n h1]
      exact hall _ (by omega)
    · rw [show inodesPerGroup = 64 from rfl, hfind]
      refine Or.inr ⟨i + 1, by omega, by omega, ?_, ?_, mt hcount.mp h0, rfl,
        view_takeNode env s (by omega)⟩
      · rw [hbit _ (by omega)]
        exact hclear
      · intro m h1 h2
        rw [hbit m h1]
        exact hlow _ (by omega)

/-! ## Lists of blocks -/

namespace Volume

def takeBlocks (v : Volume) (bs : List ℕ) : Volume := bs.foldl takeBlock v

/-- `deallocate_single_block` on a non-zero pointer. -/
def releaseBlock (v : Volume) (b : ℕ) : Volume :=
  if b ≠ 0 ∧ v.blockUsed b = true then v.freeBlock b else v

def releaseBlocks (v : Volume) (bs : List ℕ) : Volume := bs.foldl releaseBlock v

section TakeBlocks

variable (v : Volume)

@[simp] theorem takeBlocks_nil : v.takeBlocks [] = v := rfl

theorem takeBlocks_cons (b : ℕ) (bs : List ℕ) :
    v.takeBlocks (b :: bs) = (v.takeBlock b).takeBlocks bs := rfl

theorem takeBlocks_append (bs cs : List ℕ) :
    v.takeBlocks (bs ++ cs) = (v.takeBlocks bs).takeBlocks cs := List.foldl_append

/-- A property that one allocation keeps is kept by a list of them. -/
theorem takeBlocks_induct {α : Sort*} (f : Volume → α) (h : ∀ v b, f (takeBlock v b) = f v)
    (bs : List ℕ) : f (v.takeBlocks bs) = f v := by
  induction bs generalizing v with
  | nil => rfl
  | cons b bs ih => rw [takeBlocks_cons, ih, h]

@[simp] theorem inode_takeBlocks (bs : List ℕ) : (v.takeBlocks bs).inode = v.inode :=
  v.takeBlocks_induct inode (fun _ _ => rfl) bs
@[simp] theorem data_takeBlocks (bs : List ℕ) : (v.takeBlocks bs).data = v.data :=
  v.takeBlocks_induct data (fun _ _ => rfl) bs
@[simp] theorem inodeUsed_takeBlocks (bs : List ℕ) : (v.takeBlocks bs).inodeUsed = v.inodeUsed :=
  v.takeBlocks_induct inodeUsed (fun _ _ => rfl) bs
@[simp] theorem initialized_takeBlocks (bs : List ℕ) :
    (v.takeBlocks bs).initialized = v.initialized :=
  v.takeBlocks_induct initialized (fun _ _ => rfl) bs
@[simp] theorem boot_takeBlocks (bs : List ℕ) : (v.takeBlocks bs).boot = v.boot :=
  v.takeBlocks_induct boot (fun _ _ => rfl) bs
@[simp] theorem tables_takeBlocks (bs : List ℕ) : (v.takeBlocks bs).tables = v.tables :=
  v.takeBlocks_induct tables (fun v b => v.tables_takeBlock b) bs

theorem blockUsed_takeBlocks (bs : List ℕ) (c : ℕ) :
    (v.takeBlocks bs).blockUsed c = (v.blockUsed c || decide (c ∈ bs)) := by
  induction bs generalizing v with
  | nil => simp
  | cons b bs ih =>
      rw [takeBlocks_cons, ih]
      change (Function.update v.blockUsed b true c || _) = _
      by_cases h : c = b
      · simp [h]
      · simp [h]

end TakeBlocks

section ReleaseBlocks

variable (v : Volume)

theorem releaseBlocks_cons (b : ℕ) (bs : List ℕ) :
    v.releaseBlocks (b :: bs) = (v.releaseBlock b).releaseBlocks bs := rfl

theorem releaseBlocks_append (bs cs : List ℕ) :
    v.releaseBlocks (bs ++ cs) = (v.releaseBlocks bs).releaseBlocks cs := List.foldl_append

theorem releaseBlocks_induct {α : Sort*} (f : Volume → α) (h : ∀ v b, f (freeBlock v b) = f v)
    (bs : List ℕ) : f (v.releaseBlocks bs) = f v := by
  induction bs generalizing v with
  | nil => rfl
  | cons b bs ih =>
      rw [releaseBlocks_cons, ih, releaseBlock]
      split
      · exact h v b
      · rfl

@[simp] theorem inode_releaseBlocks (bs : List ℕ) : (v.releaseBlocks bs).inode = v.inode :=
  v.releaseBlocks_induct inode (fun _ _ => rfl) bs
@[simp] theorem data_releaseBlocks (bs : List ℕ) : (v.releaseBlocks bs).data = v.data :=
  v.releaseBlocks_induct data (fun _ _ => rfl) bs
@[simp] theorem inodeUsed_releaseBlocks (bs : List ℕ) :
    (v.releaseBlocks bs).inodeUsed = v.inodeUsed :=
  v.releaseBlocks_induct inodeUsed (fun _ _ => rfl) bs
@[simp] theorem initialized_releaseBlocks (bs : List ℕ) :
    (v.releaseBlocks bs).initialized = v.initialized :=
  v.releaseBlocks_induct initialized (fun _ _ => rfl) bs
@[simp] theorem boot_releaseBlocks (bs : List ℕ) : (v.releaseBlocks bs).boot = v.boot :=
  v.releaseBlocks_induct boot (fun _ _ => rfl) bs
@[simp] theorem tables_releaseBlocks (bs : List ℕ) : (v.releaseBlocks bs).tables = v.tables :=
  v.releaseBlocks_induct tables (fun v b => v.tables_freeBlock b) bs

theorem blockUsed_releaseBlocks (bs : List ℕ) (c : ℕ) :
    (v.releaseBlocks bs).blockUsed c = (v.blockUsed c && !decide (c ≠ 0 ∧ c ∈ bs)) := by
  induction bs generalizing v with
  | nil => simp [releaseBlocks]
  | cons b bs ih =>
      rw [releaseBlocks_cons, ih]
      have hb : (v.releaseBlock b).blockUsed c = (v.blockUsed c && !decide (c ≠ 0 ∧ c = b)) := by
        unfold releaseBlock
        by_cases hr : b ≠ 0 ∧ v.blockUsed b = true
        · rw [if_pos hr]
          change Function.update v.blockUsed b false c = _
          by_cases h : c = b
          · simp [h, hr.1]
          · simp [h]
        · rw [if_neg hr]
          by_cases h : c = b
          · subst h
            by_cases h0 : c = 0
            · simp [h0]
            · have hu : v.blockUsed c = false := by simpa [h0] using hr
              simp [hu]
          · simp [h]
      rw [hb]
      by_cases h0 : c = 0
      · simp [h0]
      · by_cases h : c = b
        · subst h
          simp [h0]
        · simp [h0, h]

end ReleaseBlocks

end Volume

theorem view_deallocatePointers (env : Env) (s : Fs) (bs : List ℕ) (h : ∀ b ∈ bs, b < 4096) :
    view (deallocatePointers env s bs) = (view s).releaseBlocks bs := by
  induction bs generalizing s with
  | nil => rfl
  | cons b bs ih =>
      have hb := h b List.mem_cons_self
      change view (deallocatePointers env (if b ≠ 0 then deallocateSingleBlock env s b else s) bs)
        = _
      rw [ih _ fun c hc => h c (List.mem_cons_of_mem _ hc), Volume.releaseBlocks_cons]
      congr 1
      by_cases h0 : b = 0
      · rw [if_neg (not_not.mpr h0), Volume.releaseBlock, if_neg (fun hc => hc.1 h0)]
      · rw [if_pos h0, view_deallocateSingleBlock env s hb]
        rfl

/-! ## `deallocate_node` -/

/-- The pointers `deallocate_node` gives back, in its order. -/
def EXT2Inode.pointers (x : EXT2Inode) (data : ℕ → Block) : List ℕ :=
  (List.range 12).map x.block ++
    if x.block 12 ≠ 0 then
      (List.range 128).map (tableEntry (data (x.block 12))) ++ [x.block 12]
    else []

theorem view_deallocateNode {env : Env} {s : Fs} {p n : ℕ} (hs : (view s).initialized = true)
    (ha : Addresses env s p n) (hp : p ≤ 4096)
    (hbound : ∀ b ∈ ((view s).inode n).pointers (view s).data, b < 4096)
    (h12 : ((view s).inode n).block 12 = 0 ∨ 21 ≤ ((view s).inode n).block 12) :
    view (deallocateNode env s p) =
      (((view s).releaseBlocks (((view s).inode n).pointers (view s).data)).setInode n
        EXT2Inode.zero).freeInode p := by
  have hguard : ¬ (s.initialized = false ∨ p = 0) := by
    rintro (h | h)
    · exact absurd (h ▸ hs : (false : Bool) = true) (by decide)
    · exact ha.ne_zero h
  unfold deallocateNode
  rw [if_neg hguard, ha.readInode]
  generalize hx : (view s).inode n = x at hbound h12 ⊢
  simp only
  -- the direct blocks
  have hdirect := view_deallocatePointers env s ((List.range 12).map x.block)
    fun b hb => hbound b (List.mem_append_left _ hb)
  generalize hs₁ : deallocatePointers env s ((List.range 12).map x.block) = s₁ at hdirect ⊢
  -- the indirect blocks
  have hall : view
      (if x.block 12 ≠ 0 then
        deallocateSingleBlock env
          (deallocatePointers env s₁
            ((List.range 128).map (tableEntry (readBlocks s₁ (x.block 12))))) (x.block 12)
      else s₁) = (view s).releaseBlocks (x.pointers (view s).data) := by
    unfold EXT2Inode.pointers at hbound ⊢
    rw [Volume.releaseBlocks_append, ← hdirect]
    by_cases h0 : x.block 12 = 0
    · rw [if_neg (not_not.mpr h0), if_neg (not_not.mpr h0)]
      rfl
    · rw [if_pos h0] at hbound
      rw [if_pos h0, if_pos h0]
      have h12lt : x.block 12 < 4096 := hbound _ (by simp)
      have hread : readBlocks s₁ (x.block 12) = (view s).data (x.block 12) := by
        rw [readBlocks_data s₁ (h12.resolve_left h0) (by omega), hdirect,
          Volume.data_releaseBlocks]
      rw [hread, view_deallocateSingleBlock _ _ h12lt, view_deallocatePointers, 
        Volume.releaseBlocks_append]
      · rfl
      · exact fun b hb => hbound b (List.mem_append_right _ (List.mem_append_left _ hb))
  generalize (if x.block 12 ≠ 0 then
        deallocateSingleBlock env
          (deallocatePointers env s₁
            ((List.range 128).map (tableEntry (readBlocks s₁ (x.block 12))))) (x.block 12)
      else s₁) = s₂ at hall ⊢
  have ha₂ : Addresses env s₂ p n := ha.congr (by rw [hall, Volume.tables_releaseBlocks])
  rw [view_releaseNode env _ (by have := ha.ne_zero; omega) hp, ha₂.writeInode, hall]

/-! ## Counters -/

/-- The free-block counters agree with the block bitmap. -/
structure BlockCount (v : Volume) : Prop where
  group : v.freeBlocks = clearCount v.blockUsed 256
  total : v.superblock.s_free_blocks_count.toNat = v.freeBlocks + 1792

/-- The free-inode counters agree with the inode bitmap. -/
structure InodeCount (v : Volume) : Prop where
  group : v.freeInodes = clearCount (fun i => v.inodeUsed (i + 1)) 64
  total : v.superblock.s_free_inodes_count.toNat = v.freeInodes + 448

/-- The copies on disk are those in memory. -/
structure Synced (v : Volume) : Prop where
  superblock : v.superblockCopy = v.superblock
  group0 : v.group0Copy = v.group0

theorem toNat_sub_one {w : ℕ} {x : BitVec w} (h : x.toNat ≠ 0) :
    (x - 1).toNat = x.toNat - 1 := by
  have hw : w ≠ 0 := by
    rintro rfl
    exact h (by simp [BitVec.eq_nil x])
  have h1 : 1 ≤ x := by
    rw [BitVec.le_def, BitVec.ofNat_eq_ofNat, BitVec.toNat_ofNat,
      Nat.mod_eq_of_lt (Nat.one_lt_two_pow hw)]
    omega
  rw [BitVec.toNat_sub_of_le h1, BitVec.ofNat_eq_ofNat, BitVec.toNat_ofNat,
    Nat.mod_eq_of_lt (Nat.one_lt_two_pow hw)]

theorem toNat_add_one {w : ℕ} {x : BitVec w} (hw : w ≠ 0) (h : x.toNat + 1 < 2 ^ w) :
    (x + 1).toNat = x.toNat + 1 := by
  rw [BitVec.toNat_add, BitVec.ofNat_eq_ofNat, BitVec.toNat_ofNat,
    Nat.mod_eq_of_lt (Nat.one_lt_two_pow hw), Nat.mod_eq_of_lt h]

namespace Volume

variable {v : Volume} {b n : ℕ}

theorem group0_takeBlock : (v.takeBlock b).group0 =
    { v.group0 with bg_free_blocks_count := v.group0.bg_free_blocks_count - 1 } :=
  Vector.getElem_set_self ..

theorem group0_freeBlock : (v.freeBlock b).group0 =
    { v.group0 with bg_free_blocks_count := v.group0.bg_free_blocks_count + 1 } :=
  Vector.getElem_set_self ..

theorem group0_takeInode : (v.takeInode n).group0 =
    { v.group0 with bg_free_inodes_count := v.group0.bg_free_inodes_count - 1 } :=
  Vector.getElem_set_self ..

theorem group0_freeInode : (v.freeInode n).group0 =
    { v.group0 with bg_free_inodes_count := v.group0.bg_free_inodes_count + 1 } :=
  Vector.getElem_set_self ..

theorem freeBlocks_takeBlock (h : v.freeBlocks ≠ 0) :
    (v.takeBlock b).freeBlocks = v.freeBlocks - 1 := by
  rw [freeBlocks, group0_takeBlock]
  exact toNat_sub_one h

theorem freeBlocks_freeBlock (h : v.freeBlocks + 1 < 2 ^ 16) :
    (v.freeBlock b).freeBlocks = v.freeBlocks + 1 := by
  rw [freeBlocks, group0_freeBlock]
  exact toNat_add_one (by decide) h

theorem freeInodes_takeInode (h : v.freeInodes ≠ 0) :
    (v.takeInode n).freeInodes = v.freeInodes - 1 := by
  rw [freeInodes, group0_takeInode]
  exact toNat_sub_one h

theorem freeInodes_freeInode (h : v.freeInodes + 1 < 2 ^ 16) :
    (v.freeInode n).freeInodes = v.freeInodes + 1 := by
  rw [freeInodes, group0_freeInode]
  exact toNat_add_one (by decide) h

theorem freeBlocks_takeInode : (v.takeInode n).freeBlocks = v.freeBlocks := by
  rw [freeBlocks, group0_takeInode]
  rfl

theorem freeBlocks_freeInode : (v.freeInode n).freeBlocks = v.freeBlocks := by
  rw [freeBlocks, group0_freeInode]
  rfl

theorem freeInodes_takeBlock : (v.takeBlock b).freeInodes = v.freeInodes := by
  rw [freeInodes, group0_takeBlock]
  rfl

theorem freeInodes_freeBlock : (v.freeBlock b).freeInodes = v.freeInodes := by
  rw [freeInodes, group0_freeBlock]
  rfl

end Volume

namespace BlockCount

variable {v : Volume} {b : ℕ}

theorem ne_zero (h : BlockCount v) (hb : b < 256) (hu : v.blockUsed b = false) :
    v.freeBlocks ≠ 0 := by
  rw [h.group]
  exact fun hz => by simp [clearCount_eq_zero.mp hz b hb] at hu

theorem takeBlock (h : BlockCount v) (hb : b < 256) (hu : v.blockUsed b = false) :
    BlockCount (v.takeBlock b) := by
  have h0 := h.ne_zero hb hu
  have hcount : clearCount (Function.update v.blockUsed b true) 256 + 1 =
      clearCount v.blockUsed 256 :=
    clearCount_insert hb hu (Function.update_self ..) fun i _ hi => Function.update_of_ne hi ..
  have hgroup := h.group
  constructor
  · rw [Volume.freeBlocks_takeBlock h0]
    change _ = clearCount (Function.update v.blockUsed b true) 256
    omega
  · rw [Volume.freeBlocks_takeBlock h0]
    change (v.superblock.s_free_blocks_count - 1).toNat = _
    have htotal := h.total
    rw [toNat_sub_one (by omega)]
    omega

theorem takeBlocks {bs : List ℕ} (h : BlockCount v) (hnd : bs.Nodup)
    (hbs : ∀ b ∈ bs, b < 256 ∧ v.blockUsed b = false) : BlockCount (v.takeBlocks bs) := by
  induction bs generalizing v with
  | nil => exact h
  | cons b bs ih =>
      obtain ⟨hnot, hnd⟩ := List.nodup_cons.mp hnd
      obtain ⟨hb, hu⟩ := hbs b List.mem_cons_self
      refine ih (h.takeBlock hb hu) hnd fun c hc => ?_
      obtain ⟨hlt, hclear⟩ := hbs c (List.mem_cons_of_mem _ hc)
      exact ⟨hlt, (Function.update_of_ne (ne_of_mem_of_not_mem hc hnot) ..).trans hclear⟩

theorem freeBlock (h : BlockCount v) (hb : b < 256) (hu : v.blockUsed b = true) :
    BlockCount (v.freeBlock b) := by
  have hcount : clearCount v.blockUsed 256 + 1 =
      clearCount (Function.update v.blockUsed b false) 256 :=
    clearCount_insert hb (Function.update_self ..) hu
      fun i _ hi => (Function.update_of_ne hi ..).symm
  have hle := clearCount_le (Function.update v.blockUsed b false) 256
  have hgroup := h.group
  have h0 : (v.freeBlock b).freeBlocks = v.freeBlocks + 1 :=
    Volume.freeBlocks_freeBlock (by omega)
  constructor
  · rw [h0]
    change _ = clearCount (Function.update v.blockUsed b false) 256
    omega
  · rw [h0]
    change (v.superblock.s_free_blocks_count + 1).toNat = _
    have htotal := h.total
    rw [toNat_add_one (by decide) (by omega)]
    omega

theorem releaseBlocks {bs : List ℕ} (h : BlockCount v) (hb : ∀ b ∈ bs, b < 256) :
    BlockCount (v.releaseBlocks bs) := by
  induction bs generalizing v with
  | nil => exact h
  | cons b bs ih =>
      refine ih ?_ fun c hc => hb c (List.mem_cons_of_mem _ hc)
      unfold Volume.releaseBlock
      split
      · next hr => exact h.freeBlock (hb b List.mem_cons_self) hr.2
      · exact h

theorem takeInode {n : ℕ} (h : BlockCount v) : BlockCount (v.takeInode n) :=
  ⟨Volume.freeBlocks_takeInode.trans h.group, by rw [Volume.freeBlocks_takeInode]; exact h.total⟩

theorem freeInode {n : ℕ} (h : BlockCount v) : BlockCount (v.freeInode n) :=
  ⟨Volume.freeBlocks_freeInode.trans h.group, by rw [Volume.freeBlocks_freeInode]; exact h.total⟩

end BlockCount

namespace InodeCount

variable {v : Volume} {n : ℕ}

theorem takeInode (h : InodeCount v) (h1 : 1 ≤ n) (hn : n ≤ 64) (hu : v.inodeUsed n = false) :
    InodeCount (v.takeInode n) := by
  have hcount : clearCount (fun i => Function.update v.inodeUsed n true (i + 1)) 64 + 1 =
      clearCount (fun i => v.inodeUsed (i + 1)) 64 := by
    refine clearCount_insert (k := n - 1) (by omega) ?_ ?_ fun i _ hi => ?_
    · rw [Nat.sub_add_cancel h1, hu]
    · rw [Nat.sub_add_cancel h1, Function.update_self]
    · exact Function.update_of_ne (by omega) ..
  have hgroup := h.group
  have h0 : (v.takeInode n).freeInodes = v.freeInodes - 1 :=
    Volume.freeInodes_takeInode (by omega)
  constructor
  · rw [h0]
    change _ = clearCount (fun i => Function.update v.inodeUsed n true (i + 1)) 64
    omega
  · rw [h0]
    change (v.superblock.s_free_inodes_count - 1).toNat = _
    have htotal := h.total
    rw [toNat_sub_one (by omega)]
    omega

theorem freeInode (h : InodeCount v) (h1 : 1 ≤ n) (hn : n ≤ 64) (hu : v.inodeUsed n = true) :
    InodeCount (v.freeInode n) := by
  have hcount : clearCount (fun i => v.inodeUsed (i + 1)) 64 + 1 =
      clearCount (fun i => Function.update v.inodeUsed n false (i + 1)) 64 := by
    refine clearCount_insert (k := n - 1) (by omega) ?_ ?_ fun i _ hi => ?_
    · rw [Nat.sub_add_cancel h1, Function.update_self]
    · rw [Nat.sub_add_cancel h1, hu]
    · exact (Function.update_of_ne (by omega) ..).symm
  have hle := clearCount_le (fun i => Function.update v.inodeUsed n false (i + 1)) 64
  have hgroup := h.group
  have h0 : (v.freeInode n).freeInodes = v.freeInodes + 1 :=
    Volume.freeInodes_freeInode (by omega)
  constructor
  · rw [h0]
    change _ = clearCount (fun i => Function.update v.inodeUsed n false (i + 1)) 64
    omega
  · rw [h0]
    change (v.superblock.s_free_inodes_count + 1).toNat = _
    have htotal := h.total
    rw [toNat_add_one (by decide) (by omega)]
    omega

theorem takeBlock {b : ℕ} (h : InodeCount v) : InodeCount (v.takeBlock b) :=
  ⟨Volume.freeInodes_takeBlock.trans h.group, by rw [Volume.freeInodes_takeBlock]; exact h.total⟩

theorem freeBlock {b : ℕ} (h : InodeCount v) : InodeCount (v.freeBlock b) :=
  ⟨Volume.freeInodes_freeBlock.trans h.group, by rw [Volume.freeInodes_freeBlock]; exact h.total⟩

theorem takeBlocks {bs : List ℕ} (h : InodeCount v) : InodeCount (v.takeBlocks bs) := by
  induction bs generalizing v with
  | nil => exact h
  | cons b bs ih => exact ih h.takeBlock

theorem releaseBlocks {bs : List ℕ} (h : InodeCount v) : InodeCount (v.releaseBlocks bs) := by
  induction bs generalizing v with
  | nil => exact h
  | cons b bs ih =>
      refine ih ?_
      unfold Volume.releaseBlock
      split
      · exact h.freeBlock
      · exact h

end InodeCount

namespace Synced

variable {v : Volume}

theorem takeBlocks {bs : List ℕ} (h : Synced v) : Synced (v.takeBlocks bs) := by
  induction bs generalizing v with
  | nil => exact h
  | cons b bs ih => exact ih ⟨rfl, Volume.group0_takeBlock.symm⟩

theorem releaseBlocks {bs : List ℕ} (h : Synced v) : Synced (v.releaseBlocks bs) := by
  induction bs generalizing v with
  | nil => exact h
  | cons b bs ih =>
      refine ih ?_
      unfold Volume.releaseBlock
      split
      · exact ⟨rfl, Volume.group0_freeBlock.symm⟩
      · exact h

theorem takeInode (n : ℕ) : Synced (v.takeInode n) := ⟨rfl, Volume.group0_takeInode.symm⟩

theorem freeInode (n : ℕ) : Synced (v.freeInode n) := ⟨rfl, Volume.group0_freeInode.symm⟩

end Synced

/-- While the counters agree, `allocate_block` fails only on a full bitmap. -/
theorem allocateBlock_exact (env : Env) {s : Fs} (h : BlockCount (view s)) :
    (allocateBlock env s = (0, s) ∧ (view s).freeBlocks = 0) ∨
    ∃ b < 256, (view s).blockUsed b = false ∧ (∀ c < b, (view s).blockUsed c = true) ∧
      (view s).freeBlocks ≠ 0 ∧ (allocateBlock env s).1 = b ∧
      view (allocateBlock env s).2 = (view s).takeBlock b := by
  rcases allocateBlock_cases env s with ⟨he, h0 | hall⟩ | htake
  · exact Or.inl ⟨he, h0⟩
  · exact Or.inl ⟨he, h.group.trans (clearCount_eq_zero.mpr hall)⟩
  · exact Or.inr htake

end RendangOS.Ext2
