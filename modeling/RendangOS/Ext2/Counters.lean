import RendangOS.Ext2.Tree

/-!
# The free counters

In every run of calls that do not name `"."` or `".."` the four counters agree
with the two bitmaps and with their copies on disk. So the test of a counter
before the scan of a bitmap decides nothing that the scan does not, and an
allocation fails exactly when every bit is set.
-/

namespace RendangOS.Ext2

open Image Bitmap

/-- Calls on directories under a name other than `"."` and `".."`. -/
def ProperCall (s : Fs) (c : Call) : Prop :=
  AllocatedDir s c.request.parent ∧ c.request.name.Proper

theorem ProperCall.treeCall {s : Fs} {c : Call} (h : ProperCall s c) : TreeCall s c := by
  refine ⟨h.1, ?_⟩
  rintro r rfl
  exact Or.inl h.2

theorem ProperCall.onDirectory {s : Fs} {c : Call} (h : ProperCall s c) : OnDirectory s c := h.1

instance (s : Fs) (c : Call) : Decidable (ProperCall s c) := by
  unfold ProperCall
  infer_instance

/-- Every call of a list is proper in the state in which it is made. -/
def allProper : List Call → Fs → Bool
  | [], _ => true
  | c :: cs, s => decide (ProperCall s c) && allProper cs (c.run .zero s).2

theorem Reachable.runCalls {cs : List Call} {s : Fs} (h : Reachable ProperCall s)
    (hcs : allProper cs s = true) : Reachable ProperCall (runCalls cs s) := by
  induction cs generalizing s with
  | nil => exact h
  | cons c cs ih =>
      rw [allProper, Bool.and_eq_true, decide_eq_true_eq] at hcs
      exact ih (h.step .zero hcs.1) hcs.2

/-- The counters in memory and on disk agree with the bitmaps. -/
structure CountersExact (s : Fs) : Prop where
  blocks : s.group0.bg_free_blocks_count.toNat =
    clearCount (fun b => (s.disk blockBitmapLba).getLsbD b) blocksPerGroup
  inodes : s.group0.bg_free_inodes_count.toNat =
    clearCount (fun i => (s.disk inodeBitmapLba).getLsbD i) inodesPerGroup
  total_blocks : s.superblock.s_free_blocks_count.toNat =
    s.group0.bg_free_blocks_count.toNat + (totalBlocks - blocksPerGroup)
  total_inodes : s.superblock.s_free_inodes_count.toNat =
    s.group0.bg_free_inodes_count.toNat + (totalInodes - inodesPerGroup)
  superblock_copy : EXT2Superblock.ofImage ((s.disk superblockLba).extractLsb' 0 1632) =
    s.superblock
  group_copy : EXT2BlockGroupDescriptor.ofImage ((s.disk bgdtLba).extractLsb' 0 256) = s.group0

/-- The fast path of an allocation agrees with its scan, and it fails exactly
when no bit is clear. -/
structure AllocatorExact (env : Env) (s : Fs) : Prop where
  block_path : s.group0.bg_free_blocks_count = 0 ↔
    firstClear (readBlocks s blockBitmapLba) blocksPerGroup = none
  block_fails : (allocateBlock env s).1 = 0 ↔
    ∀ b < blocksPerGroup, (s.disk blockBitmapLba).getLsbD b = true
  node_path : s.group0.bg_free_inodes_count = 0 ↔
    firstClear (readBlocks s inodeBitmapLba) inodesPerGroup = none
  node_fails : (allocateNode env s).1 = 0 ↔
    ∀ i < inodesPerGroup, (s.disk inodeBitmapLba).getLsbD i = true

/-- From `s` to `s'` no counter has gone up. -/
structure CountersFall (s s' : Fs) : Prop where
  blocks : s'.group0.bg_free_blocks_count.toNat ≤ s.group0.bg_free_blocks_count.toNat
  inodes : s'.group0.bg_free_inodes_count.toNat ≤ s.group0.bg_free_inodes_count.toNat
  total_blocks : s'.superblock.s_free_blocks_count.toNat ≤ s.superblock.s_free_blocks_count.toNat
  total_inodes : s'.superblock.s_free_inodes_count.toNat ≤ s.superblock.s_free_inodes_count.toNat

variable {env : Env} {s s' : Fs} {held : Set ℕ}

theorem Tree.countersExact (h : Tree held (view s)) : CountersExact s where
  blocks := h.settled.sound.blocks.group
  inodes := h.count.group.trans (clearCount_congr fun _ _ => rfl)
  total_blocks := h.settled.sound.blocks.total
  total_inodes := h.count.total
  superblock_copy := h.settled.synced.superblock
  group_copy := h.settled.synced.group0

theorem firstClear_eq_none {bitmap : Block} {n : ℕ} :
    firstClear bitmap n = none ↔ ∀ i < n, bitmap.getLsbD i = true := by
  rw [firstClear_eq]
  rcases find_clear (fun i => bitmap.getLsbD i) n with ⟨hnone, hall⟩ | ⟨k, hk, hsome, hclear, -⟩
  · exact ⟨fun _ => hall, fun _ => hnone⟩
  · rw [hsome]
    constructor
    · intro hno
      cases hno
    · intro hall
      rw [hall k hk] at hclear
      cases hclear

/-- A counter that counts the clear bits is zero when the scan finds none. -/
theorem count_zero_iff {w n : ℕ} {c : BitVec w} {bitmap : Block}
    (h : c.toNat = clearCount (fun i => bitmap.getLsbD i) n) :
    c = 0 ↔ firstClear bitmap n = none := by
  rw [firstClear_eq_none, ← clearCount_eq_zero, ← h]
  constructor
  · rintro rfl
    exact BitVec.toNat_zero ..
  · intro h0
    exact BitVec.eq_of_toNat_eq (h0.trans (BitVec.toNat_zero ..).symm)

theorem Tree.allocatorExact (h : Tree held (view s)) (env : Env) : AllocatorExact env s where
  block_path := count_zero_iff h.countersExact.blocks
  block_fails := by
    have hblocks := h.settled.sound.blocks
    rcases allocateBlock_exact env hblocks with ⟨hres, h0⟩ | ⟨b, hb, hu, -, -, hnum, -⟩
    · rw [hres]
      exact ⟨fun _ => clearCount_eq_zero.mp (hblocks.group.symm.trans h0), fun _ => rfl⟩
    · have hne : b ≠ 0 := by
        rintro rfl
        rw [h.settled.sound.meta_used 0 (by decide)] at hu
        cases hu
      rw [hnum]
      refine ⟨fun h0 => absurd h0 hne, fun hall => ?_⟩
      rw [show (view s).blockUsed b = true from hall b hb] at hu
      cases hu
  node_path := count_zero_iff h.countersExact.inodes
  node_fails := by
    have hinodes := h.countersExact.inodes
    rcases allocateNode_cases env s h.settled.sound.initialized with
      ⟨hres, hno⟩ | ⟨n, h1, h64, hu, -, -, hnum, -⟩
    · rw [hres]
      refine ⟨fun _ => ?_, fun _ => rfl⟩
      rcases hno with h0 | hall
      · exact clearCount_eq_zero.mp (hinodes.symm.trans h0)
      · intro i hi
        exact hall (i + 1) (Nat.succ_pos i) hi
    · rw [hnum]
      refine ⟨fun h0 => absurd h0 (by omega), fun hall => ?_⟩
      have hbit := hall (n - 1) (show n - 1 < 64 by omega)
      have hused : (view s).inodeUsed n = true := by
        change (n != 0 && (s.disk inodeBitmapLba).getLsbD (n - 1)) = true
        rw [hbit, Bool.and_true, bne_iff_ne]
        omega
      rw [hu] at hused
      cases hused

/-! ## No counter wraps

A counter that wrapped around would move against the direction of the call. -/

/-- Every bit set in `v` is set in `v'`. -/
structure MoreUsed (v v' : Volume) : Prop where
  blocks : ∀ b, v.blockUsed b = true → v'.blockUsed b = true
  inodes : ∀ n, v.inodeUsed n = true → v'.inodeUsed n = true

theorem MoreUsed.refl (v : Volume) : MoreUsed v v := ⟨fun _ h => h, fun _ h => h⟩

theorem write_moreUsed {r : Request} (h : Settled (view s)) (hp : AllocatedDir s r.parent) :
    MoreUsed (view s) (view (write env s r).2) := by
  rcases h.write_dir env hp with hres | ⟨-, n, P, x, v₃, hst, hadd⟩
  · rw [hres]
    exact .refl _
  · constructor
    · intro b hb
      have hb₃ : v₃.blockUsed b = true := by
        rw [hst.blockUsed_eq, hb, Bool.true_or]
      generalize (write env s r).1 = code, view (write env s r).2 = v' at hadd ⊢
      cases hadd with
      | split => exact hb₃
      | grow c =>
          rw [Volume.blockUsed_grow, hb₃, ite_self]
      | full => exact hb₃
    · intro m hm
      rw [hadd.inodeUsed_eq, hst.inodeUsed_eq]
      by_cases hmn : m = n
      · rw [hmn, Function.update_self]
      · rw [Function.update_of_ne hmn, hm]

theorem delete_moreUsed {r : Request} (h : Settled (view s)) (hp : AllocatedDir s r.parent) :
    MoreUsed (view (delete env s r).2) (view s) := by
  have hslot : IsSlot r.parent := isSlot_of_isDir hp.2
  rcases delete_cases env h.sound (fun n hn => hn.inTable) (Or.inr hslot.inTable) with
    ⟨code, -, hres⟩ | ⟨e, b, buf, -, -, hview⟩
  · rw [hres]
    exact .refl _
  · rw [hview]
    constructor
    · intro c hc
      rw [Volume.blockUsed_dealloc, Bool.and_eq_true] at hc
      exact hc.1
    · intro n hn
      rw [Volume.inodeUsed_dealloc] at hn
      by_cases hne : n = e.inode
      · rw [hne, Function.update_self] at hn
        cases hn
      · rwa [Function.update_of_ne hne] at hn

/-- Counters that agree with the bitmaps fall when more bits are set. -/
theorem CountersExact.fall (h : CountersExact s) (h' : CountersExact s')
    (hmore : MoreUsed (view s) (view s')) : CountersFall s s' := by
  have hblocks : s'.group0.bg_free_blocks_count.toNat ≤ s.group0.bg_free_blocks_count.toNat := by
    rw [h.blocks, h'.blocks]
    exact clearCount_mono hmore.blocks
  have hinodes : s'.group0.bg_free_inodes_count.toNat ≤ s.group0.bg_free_inodes_count.toNat := by
    rw [h.inodes, h'.inodes]
    apply clearCount_mono
    intro i hi
    have hbit : (i + 1 != 0 && (s.disk inodeBitmapLba).getLsbD i) = true →
        (i + 1 != 0 && (s'.disk inodeBitmapLba).getLsbD i) = true := hmore.inodes (i + 1)
    rw [bne_iff_ne.mpr i.succ_ne_zero, Bool.true_and, Bool.true_and] at hbit
    exact hbit hi
  have htb := h.total_blocks
  have htb' := h'.total_blocks
  have hti := h.total_inodes
  have hti' := h'.total_inodes
  exact ⟨hblocks, hinodes, by omega, by omega⟩

theorem reachable_countersExact (h : Reachable ProperCall s) : CountersExact s := by
  obtain ⟨held, htree⟩ := reachable_tree (h.mono fun s c hc => hc.treeCall)
  exact htree.countersExact

/-- **The free counters agree with the bitmaps over whole runs**, and with
their copies on disk; an allocation fails exactly on a full bitmap; and the
next call moves no counter against its direction. -/
theorem counters_exact (h : Reachable ProperCall s) :
    CountersExact s ∧ (∀ env, AllocatorExact env s) ∧
    (∀ env r, ProperCall s (.write r) → CountersFall s (write env s r).2) ∧
    ∀ env r, ProperCall s (.delete r) → CountersFall (delete env s r).2 s := by
  obtain ⟨held, htree⟩ := reachable_tree (h.mono fun s c hc => hc.treeCall)
  have hexact := htree.countersExact
  refine ⟨hexact, htree.allocatorExact, ?_, ?_⟩
  · intro env r hr
    have hwrite : ∃ held', Tree held' (view (write env s r).2) := htree.write hr.1
    obtain ⟨held', htree'⟩ := hwrite
    exact hexact.fall htree'.countersExact (write_moreUsed htree.settled hr.1)
  · intro env r hr
    have hdelete : ∃ held', Tree held' (view (delete env s r).2) :=
      htree.delete hr.1 (Or.inl hr.2)
    obtain ⟨held', htree'⟩ := hdelete
    exact htree'.countersExact.fall hexact (delete_moreUsed htree.settled hr.1)

/-- A file of three bytes takes one block and one inode. -/
theorem counters_exact_small_file :
    CountersExact (smallFile.run .zero freshFs).2 ∧
      (smallFile.run .zero freshFs).2.group0.bg_free_blocks_count = 233 := by
  have hreach : Reachable ProperCall (smallFile.run .zero freshFs).2 := by
    apply (Reachable.fresh ProperCall).step .zero
    exact ⟨show AllocatedDir freshFs 2 by decide +kernel, by decide⟩
  exact ⟨(counters_exact hreach).1, by decide +kernel⟩

end RendangOS.Ext2
