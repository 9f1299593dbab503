import RendangOS.Ext2.Tree

/-!
# Writes that fail

`write` on a directory refuses at once, or allocates and fills an inode and
then looks for a place for its entry. Where it finds none it returns -1 and
keeps what it has allocated. `write` on an inode that is no directory is not
refused at all.
-/

namespace RendangOS.Ext2

open Image RecordChain Assoc Bitmap

variable {env : Env} {s : Fs} {v v' : Volume} {n q : ℕ} {r : Request} {P : List ℕ}
  {x : EXT2Inode}

/-! ## The outcomes of `write` on a directory -/

/-- A free pointer lies behind the blocks of a directory, or there are twelve. -/
theorem dirBlocks_length_lt_iff (x : EXT2Inode) :
    x.dirBlocks.length < 12 ↔ ∃ i < 12, x.block i = 0 := by
  obtain ⟨k, hk, heq, hne, hzero⟩ := x.dirBlocks_eq
  have hlen : x.dirBlocks.length = k := by
    rw [heq]
    simp
  rw [hlen]
  constructor
  · intro hlt
    exact ⟨k, hlt, hzero hlt⟩
  · rintro ⟨i, hi, h0⟩
    by_contra hge
    exact hne i (by omega) h0

/-- The free blocks that filling an inode leaves. -/
theorem Stored.freeBlocks_eq (hst : Stored v r n P x v') (hc : BlockCount v)
    (hc' : BlockCount v') : v'.freeBlocks + P.length = v.freeBlocks := by
  rw [hc.group, hc'.group]
  apply clearCount_insert_list P hst.nodup
  · intro b hb
    exact (hst.fresh b hb).2
  · intro b _
    exact hst.blockUsed_eq b

/-- The parent has room for the entry: in its present blocks, or at a free
pointer while the new inode leaves a free block. -/
def Enterable (s : Fs) (r : Request) : Prop :=
  (view s).EntryFits r.parent r.name ∨
    (∃ i < 12, (inodeAt s r.parent).block i = 0) ∧
      demand r < s.group0.bg_free_blocks_count.toNat

namespace Settled

/-- The entry of a filled inode is added exactly when there is room for it. -/
theorem enterable_iff {code : ℤ} (h : Settled (view s)) (hp : AllocatedDir s r.parent)
    (hst : Stored (view s) r n P x v') {v'' : Volume}
    (ha : Added v' r.parent (r.entry n) code v'') : code = 0 ↔ Enterable s r := by
  have hslot : IsSlot r.parent := isSlot_of_isDir hp.2
  have hun := hst.untouched h.sound (hst.parent_ne hp)
  have hfree := hst.freeBlocks_eq h.sound.blocks (h.stored hst hslot).sound.blocks
  have hlen := hst.length
  have hcount : (view s).freeBlocks = s.group0.bg_free_blocks_count.toNat := rfl
  have hroom := dirBlocks_length_lt_iff (inodeAt s r.parent)
  have hblocks : (v'.dirBlocks r.parent).length = (inodeAt s r.parent).dirBlocks.length :=
    congrArg List.length hun.dirBlocks_eq
  unfold Enterable
  rw [← hroom, ← hun.entryFits_iff]
  cases ha with
  | split b buf hfit _ _ _ =>
      exact ⟨fun _ => Or.inl hfit, fun _ => rfl⟩
  | grow b _ hlt _ hne =>
      refine ⟨fun _ => Or.inr ⟨by omega, by omega⟩, fun _ => rfl⟩
  | full hnofit hfull =>
      constructor
      · intro hc
        cases hc
      · rintro (hfit | ⟨hlt, hdemand⟩)
        · exact absurd hfit hnofit
        · omega

/-- The four outcomes of `write` on a directory. -/
theorem write_outcome (env : Env) (h : Settled (view s)) (hp : AllocatedDir s r.parent) :
    (findEntryInDir env s r.parent r.name ≠ 0 ∧ Ext2.write env s r = (1, s)) ∨
    findEntryInDir env s r.parent r.name = 0 ∧ ((view s).NoInode ∧ Ext2.write env s r = (-1, s) ∨
      ¬ (view s).NoInode ∧ ∃ n P x v₃, Stored (view s) r n P x v₃ ∧
        ((Enterable s r ∧ (Ext2.write env s r).1 = 0 ∧
            Added v₃ r.parent (r.entry n) 0 (view (Ext2.write env s r).2)) ∨
          ¬ Enterable s r ∧ (Ext2.write env s r).1 = -1 ∧ view (Ext2.write env s r).2 = v₃)) := by
  have hslot : IsSlot r.parent := isSlot_of_isDir hp.2
  have hcases := write_dir_cases env (r := r) h.sound (fun n h1 h64 => ⟨h1, h64⟩) hslot.inTable
    hslot (by rw [hslot.slotOf]; exact hp.2) (by rw [hslot.slotOf]; exact hp.1)
  rw [hslot.slotOf] at hcases
  rcases hcases with hres | ⟨hf, hno, hres⟩ | ⟨hf, n, P, x, v₃, hst, hadd⟩
  · exact Or.inl hres
  · exact Or.inr ⟨hf, Or.inl ⟨hno, hres⟩⟩
  · have hinode : ¬ (view s).NoInode := by
      rintro (h0 | hall)
      · exact hst.count h0
      · have hu := hst.unused
        rw [hall n hst.slot.1 hst.slot.2] at hu
        cases hu
    refine Or.inr ⟨hf, Or.inr ⟨hinode, n, P, x, v₃, hst, ?_⟩⟩
    have hiff := h.enterable_iff hp hst hadd
    generalize Ext2.write env s r = res at hadd hiff ⊢
    obtain ⟨code, s'⟩ := res
    rcases hadd.code with rfl | rfl
    · exact Or.inl ⟨hiff.mp rfl, rfl, hadd⟩
    · refine Or.inr ⟨fun he => absurd (hiff.mpr he) (show (-1 : ℤ) ≠ 0 by decide), rfl, ?_⟩
      change Added v₃ r.parent (r.entry n) (-1) (view s') at hadd
      change view s' = v₃
      generalize view s' = v'' at hadd ⊢
      cases hadd
      rfl

end Settled

/-- The name is new, an inode is free, and the parent has room for the entry. -/
def Accepted (env : Env) (s : Fs) (r : Request) : Prop :=
  findEntryInDir env s r.parent r.name = 0 ∧ ¬ (view s).NoInode ∧ Enterable s r

/-- `write` looks at nothing else to return 0, whatever becomes of the content. -/
theorem Settled.write_zero_iff (env : Env) (h : Settled (view s)) (hp : AllocatedDir s r.parent) :
    (Ext2.write env s r).1 = 0 ↔ Accepted env s r := by
  unfold Accepted
  rcases h.write_outcome env hp with
    ⟨hf, hres⟩ | ⟨hf, ⟨hno, hres⟩ |
      ⟨hinode, n, P, x, v₃, -, ⟨henter, hcode, -⟩ | ⟨henter, hcode, -⟩⟩⟩
  · rw [hres]
    exact ⟨fun h0 => absurd h0 (show (1 : ℤ) ≠ 0 by decide), fun hacc => absurd hacc.1 hf⟩
  · rw [hres]
    exact ⟨fun h0 => absurd h0 (show (-1 : ℤ) ≠ 0 by decide), fun hacc => absurd hno hacc.2.1⟩
  · exact ⟨fun _ => ⟨hf, hinode, henter⟩, fun _ => hcode⟩
  · rw [hcode]
    exact ⟨fun h0 => absurd h0 (show (-1 : ℤ) ≠ 0 by decide), fun hacc => absurd hacc.2.2 henter⟩

/-! ## A failing write on a directory -/

/-- What the call has left as it was: the bitmaps, the counters in memory and on
disk, the inode table and the blocks of every directory. -/
structure NoEffect (s s' : Fs) : Prop where
  inode_bitmap : s'.disk inodeBitmapLba = s.disk inodeBitmapLba
  block_bitmap : s'.disk blockBitmapLba = s.disk blockBitmapLba
  superblock : s'.superblock = s.superblock
  bgdt : s'.bgdt = s.bgdt
  superblock_copy : (view s').superblockCopy = (view s).superblockCopy
  group_copy : (view s').group0Copy = (view s).group0Copy
  inodes : inodeAt s' = inodeAt s
  directories : ∀ n, (inodeAt s n).isDir = true → ∀ b ∈ (inodeAt s n).dirBlocks,
    s'.disk b = s.disk b

theorem NoEffect.refl (s : Fs) : NoEffect s s :=
  ⟨rfl, rfl, rfl, rfl, rfl, rfl, rfl, fun _ _ _ _ => rfl⟩

theorem NoEffect.inodeUsed_eq {s' : Fs} (h : NoEffect s s') (n : ℕ) :
    inodeUsed s' n = inodeUsed s n :=
  congrArg (fun b : Block => n != 0 && b.getLsbD (n - 1)) h.inode_bitmap

/-- The requests that `write` refuses before it allocates, and those it can enter. -/
def RefusedOrEnterable (env : Env) (s : Fs) (r : Request) : Prop :=
  findEntryInDir env s r.parent r.name ≠ 0 ∨ (view s).NoInode ∨ Enterable s r

/-- **A failing write has no effect** exactly when the name is taken, no inode
is free, or the parent has room for the entry. Otherwise the new inode and its
blocks stay allocated. -/
theorem failing_write_no_effect_iff (h : Reachable OnDirectory s) (hp : AllocatedDir s r.parent)
    (env : Env) :
    ((write env s r).1 ≠ 0 → NoEffect s (write env s r).2) ↔ RefusedOrEnterable env s r := by
  have hinv := reachable_settled h
  unfold RefusedOrEnterable
  rcases hinv.write_outcome env hp with
    ⟨hf, hres⟩ | ⟨hf, ⟨hno, hres⟩ | ⟨hinode, n, P, x, v₃, hst, hcase⟩⟩
  · rw [hres]
    exact ⟨fun _ => Or.inl hf, fun _ _ => .refl s⟩
  · rw [hres]
    exact ⟨fun _ => Or.inr (Or.inl hno), fun _ _ => .refl s⟩
  · rcases hcase with ⟨henter, hcode, -⟩ | ⟨henter, hcode, hview⟩
    · exact ⟨fun _ => Or.inr (Or.inr henter), fun _ hne => absurd hcode hne⟩
    · -- the inode that was taken is not given back
      constructor
      · intro hnone
        have heff := hnone (by rw [hcode]; decide)
        have hused : (view (write env s r).2).inodeUsed n = (view s).inodeUsed n :=
          heff.inodeUsed_eq n
        rw [hview, hst.inodeUsed_eq, Function.update_self, hst.unused] at hused
        cases hused
      · rintro (h0 | hno | he)
        · exact absurd hf h0
        · exact absurd hno hinode
        · exact absurd he henter

/-- A name that is taken is refused. -/
theorem failing_write_no_effect_taken :
    NoEffect freshFs (write .zero freshFs (.folder 2 .dot)).2 := by
  have hiff := failing_write_no_effect_iff (Reachable.fresh OnDirectory) (r := .folder 2 .dot)
    (show AllocatedDir freshFs 2 by decide +kernel) .zero
  exact hiff.mpr (Or.inl (by decide +kernel)) (by decide +kernel)

/-- Twelve files in the root directory, one for each block it can have. -/
def crowdRoot : List Call := (List.range 12).map fun k => .write (.file 2 (.long k) [])

/-- A thirteenth long name does not fit. The call fails, and inode 24 that it
took stays marked used. -/
theorem failing_write_leaks_inode :
    Reachable OnDirectory (runCalls crowdRoot freshFs) ∧
      AllocatedDir (runCalls crowdRoot freshFs) 2 ∧
      (write .zero (runCalls crowdRoot freshFs) (.file 2 (.long 12) [])).1 = -1 ∧
      ¬ NoEffect (runCalls crowdRoot freshFs)
        (write .zero (runCalls crowdRoot freshFs) (.file 2 (.long 12) [])).2 := by
  have hreach : Reachable TreeCall (runCalls crowdRoot freshFs) := by
    apply reachable_onRoot (Reachable.fresh TreeCall)
    intro c hc
    obtain ⟨k, hk, rfl⟩ := List.mem_map.mp hc
    exact ⟨rfl, EntryName.long_proper k⟩
  obtain ⟨held, htree⟩ := reachable_tree hreach
  have hrun : (write .zero (runCalls crowdRoot freshFs) (.file 2 (.long 12) [])).1 = -1 ∧
      inodeUsed (runCalls crowdRoot freshFs) 24 = false ∧
      inodeUsed (write .zero (runCalls crowdRoot freshFs) (.file 2 (.long 12) [])).2 24 = true := by
    decide +kernel
  obtain ⟨hcode, hfree, hused⟩ := hrun
  refine ⟨hreach.mono fun s c hc => hc.1, htree.intact.root, hcode, ?_⟩
  intro heff
  have hsame := hused.symm.trans ((heff.inodeUsed_eq 24).trans hfree)
  cases hsame

/-! ## A parent that is no directory -/

/-- The whole disk and the counters in memory are as they were. -/
structure Unchanged (s s' : Fs) : Prop where
  disk : s'.disk = s.disk
  superblock : s'.superblock = s.superblock
  bgdt : s'.bgdt = s.bgdt

theorem Settled.not_dir {p : ℕ} (h : Settled (view s)) (hp : ¬ AllocatedDir s p) :
    (inodeAt s p).isDir = false := by
  by_contra hd
  exact hp (h.allocatedDir (Bool.eq_true_of_not_eq_false hd))

/-- **A parent that is no directory is refused** only for want of a free inode.
`find_entry_in_dir` finds nothing in such an inode, which `write` takes for a
free name. -/
theorem only_directories_iff (h : Reachable OnDirectory s) (hslot : IsSlot r.parent)
    (hp : ¬ AllocatedDir s r.parent) (env : Env) :
    ((write env s r).1 ≠ 0 ∧ Unchanged s (write env s r).2) ↔ (view s).NoInode := by
  have hinv := reachable_settled h
  have ha : Addresses env s r.parent r.parent := addresses_inTable_slot hinv.sound.tables hslot
  have hf : findEntryInDir env s r.parent r.name = 0 := by
    unfold findEntryInDir
    rw [ha.readInode]
    exact if_pos (hinv.not_dir hp)
  rcases write_cases env hinv.sound r with
    ⟨hp0, -⟩ | ⟨-, hf', -⟩ | ⟨-, -, hno, hres⟩ | ⟨hp0, -, n, P, x, -, hst, hres⟩
  · exact absurd hp0 hslot.ne_zero
  · exact absurd hf hf'
  · rw [hres]
    exact ⟨fun _ => hno, fun _ => ⟨show (-1 : ℤ) ≠ 0 by decide, rfl, rfl, rfl⟩⟩
  · -- an inode has been taken, whatever becomes of the entry
    have hsound := hst.sound hinv.sound hst.slot hslot hp0
    have hused : (view (write env s r).2).inodeUsed n = true := by
      rw [hres]
      refine (congrFun (hsound.addEntry_inodeUsed env hslot.inTable (r.entry n)) n).trans ?_
      rw [hst.inodeUsed_eq, Function.update_self]
    constructor
    · rintro ⟨-, hsame⟩
      have hold : (view (write env s r).2).inodeUsed n = (view s).inodeUsed n :=
        congrArg (fun d : ℕ → Block => n != 0 && (d 4).getLsbD (n - 1)) hsame.disk
      rw [hused, hst.unused] at hold
      cases hold
    · rintro (h0 | hall)
      · exact absurd h0 hst.count
      · have hu := hst.unused
        rw [hall n hst.slot.1 hst.slot.2] at hu
        cases hu

/-- A reserved inode of a fresh file system is taken for a parent. -/
theorem only_directories_fresh :
    ¬ ((write .zero freshFs (.file 1 (.letter 0x61) [])).1 ≠ 0 ∧
      Unchanged freshFs (write .zero freshFs (.file 1 (.letter 0x61) [])).2) := by
  have hiff := only_directories_iff (Reachable.fresh OnDirectory)
    (r := .file 1 (.letter 0x61) []) ⟨by decide, by decide⟩
    (show ¬ AllocatedDir freshFs 1 by decide +kernel) .zero
  rw [hiff]
  rintro (h0 | hall)
  · exact absurd h0 (by decide +kernel)
  · exact absurd (hall 12 (by decide) (by decide)) (by decide +kernel)

/-- A file of three bytes as a parent: `write` returns 0, and the file has
grown by the block of a directory. -/
theorem write_into_file :
    Reachable OnDirectory (smallFile.run .zero freshFs).2 ∧
      IsSlot 12 ∧ ¬ AllocatedDir (smallFile.run .zero freshFs).2 12 ∧
      (write .zero (smallFile.run .zero freshFs).2 (.file 12 (.letter 0x62) [])).1 = 0 ∧
      (inodeAt (smallFile.run .zero freshFs).2 12).i_size = 3 ∧
      (inodeAt (write .zero (smallFile.run .zero freshFs).2
        (.file 12 (.letter 0x62) [])).2 12).i_size = 515 := by
  refine ⟨?_, ⟨by decide, by decide⟩, ?_⟩
  · exact (Reachable.fresh OnDirectory).step .zero (show AllocatedDir freshFs 2 by decide +kernel)
  · decide +kernel

end RendangOS.Ext2
