import RendangOS.Ext2.Removal
import RendangOS.Ext2.DirMap

/-!
# A removal undoes a write

After a successful `write` the removal of the same name finds the entry and the
inode again, whatever the sizes and however little was free, and gives back all
that the write took. Only a block that the parent directory gained stays.
-/

namespace RendangOS.Ext2

open Image RecordChain Assoc Bitmap

variable {env env' : Env} {s s' s'' : Fs} {r q : Request} {n m : ℕ} {P : List ℕ}
  {x : EXT2Inode} {v₃ : Volume} {b : ℕ} {buf : Block}

/-! ## A successful `write` -/

/-- `write` has stored inode `n` with the blocks `P` and then added its entry. -/
structure Written (s : Fs) (r : Request) (n : ℕ) (P : List ℕ) (x : EXT2Inode) (v₃ : Volume)
    (s' : Fs) : Prop where
  before : Settled (view s)
  parent : AllocatedDir s r.parent
  stored : Stored (view s) r n P x v₃
  added : Added v₃ r.parent (r.entry n) 0 (view s')
  after : Settled (view s')

theorem Settled.written (env : Env) (h : Settled (view s)) (hp : AllocatedDir s r.parent)
    (hcode : (Ext2.write env s r).1 = 0) :
    ∃ n P x v₃, Written s r n P x v₃ (Ext2.write env s r).2 := by
  rcases h.write_outcome env hp with
    ⟨-, hres⟩ | ⟨-, ⟨-, hres⟩ | ⟨-, n, P, x, v₃, hst, ⟨-, -, hadd⟩ | ⟨-, hfail, -⟩⟩⟩
  · rw [hres] at hcode
    cases hcode
  · rw [hres] at hcode
    cases hcode
  · exact ⟨n, P, x, v₃, h, hp, hst, hadd, h.write hp⟩
  · rw [hfail] at hcode
    cases hcode

namespace Written

theorem parent_ne (h : Written s r n P x v₃ s') : r.parent ≠ n := h.stored.parent_ne h.parent

theorem middle (h : Written s r n P x v₃ s') : Settled v₃ :=
  h.before.stored h.stored (isSlot_of_isDir h.parent.2)

theorem parent_isDir (h : Written s r n P x v₃ s') : (v₃.inode r.parent).isDir = true := by
  rw [h.stored.inode_ne h.parent_ne]
  exact h.parent.2

theorem allocatedDir (h : Written s r n P x v₃ s') : AllocatedDir s' r.parent := by
  constructor
  · refine (congrFun h.added.inodeUsed_eq r.parent).trans ?_
    rw [h.stored.inodeUsed_eq, Function.update_of_ne h.parent_ne]
    exact h.parent.1
  · exact (h.added.isDir_eq r.parent).trans h.parent_isDir

/-- Every inode but the new one and the parent is as before. -/
theorem untouched (h : Written s r n P x v₃ s') (hn : m ≠ n) (hp : m ≠ r.parent) :
    Untouched (view s) (view s') m :=
  (h.stored.untouched h.before.sound hn).trans (h.added.untouched h.middle.sound hp)

theorem untouched_new (h : Written s r n P x v₃ s') : Untouched v₃ (view s') n :=
  h.added.untouched h.middle.sound h.parent_ne.symm

theorem perm (h : Written s r n P x v₃ s') :
    ((view s').dirEntries r.parent).Perm (r.entry n :: (view s).dirEntries r.parent) := by
  have hn := h.stored.slot
  have hperm := h.added.dirEntries_perm h.middle.sound h.parent_isDir (show n ≠ 0 by omega)
    (show n < 2 ^ 32 by omega)
  rwa [(h.stored.untouched h.before.sound h.parent_ne).dirEntries_eq] at hperm

theorem entry_mem (h : Written s r n P x v₃ s') : r.entry n ∈ (view s').dirEntries r.parent :=
  h.perm.mem_iff.mpr List.mem_cons_self

theorem isDir (h : Written s r n P x v₃ s') : (inodeAt s' n).isDir = r.is_directory := by
  have hinode : inodeAt s' n = x := h.untouched_new.inode.trans h.stored.inode_self
  rw [hinode]
  exact h.stored.isDir

theorem ptr (h : Written s r n P x v₃ s') (j : ℕ) : (view s').ptr n j = P[j]?.getD 0 :=
  (h.untouched_new.ptr_eq j).trans (h.stored.ptr_self j)

/-- The blocks marked used are those of before, the blocks of the new inode, and
one that the parent may have gained. -/
theorem blockUsed (h : Written s r n P x v₃ s') :
    (∀ c, blockUsed s' c = (blockUsed s c || decide (c ∈ P))) ∨
    ∃ b, v₃.LeastFree b ∧ b ∈ (view s').dirBlocks r.parent ∧
      ∀ c, blockUsed s' c = if c = b then true else blockUsed s c || decide (c ∈ P) := by
  have hstored := h.stored.blockUsed_eq
  have hadd := h.added
  have hcont := (h.middle.sound.dirs _ h.parent_isDir).contiguous
  change (∀ c, (view s').blockUsed c = ((view s).blockUsed c || decide (c ∈ P))) ∨
    ∃ b, v₃.LeastFree b ∧ b ∈ (view s').dirBlocks r.parent ∧
      ∀ c, (view s').blockUsed c = if c = b then true else (view s).blockUsed c || decide (c ∈ P)
  generalize view s' = v' at hadd ⊢
  cases hadd with
  | split b buf _ _ _ _ => exact Or.inl hstored
  | grow b _ hlen hb _ =>
      have hge := hb.ge h.middle.sound.meta_used
      have hlt := hb.lt
      refine Or.inr ⟨b, hb, ?_, fun c => ?_⟩
      · rw [Volume.dirBlocks_grow hcont hlen (by omega) (by omega)]
        exact List.mem_append_right _ (List.mem_singleton_self b)
      · rw [Volume.blockUsed_grow, hstored]

/-- A directory just written is empty. -/
theorem empty (h : Written s r n P x v₃ s') (env : Env) (hdir : r.is_directory = true) :
    isDirectoryEmpty env s' n = true := by
  have hd : ((view s').inode n).isDir = true := h.isDir.trans hdir
  have hparent : IsSlot r.parent := isSlot_of_isDir h.parent.2
  have hslot := h.stored.slot
  have hlen := h.stored.length
  rw [demand_dir hdir] at hlen
  have hblocks : (view s').dirBlocks n = P :=
    h.untouched_new.dirBlocks_eq.trans (h.stored.dirBlocks_eq hdir)
  have hdata : ∀ c ∈ P, (view s').data c = dotEntries n r.parent := fun c hc => by
    rw [h.untouched_new.data_dirBlocks (by rwa [h.stored.dirBlocks_eq hdir])]
    exact h.stored.dir_data hdir hc
  rw [h.after.isDirectoryEmpty_iff env hd, hblocks]
  match P with
  | [] => trivial
  | [c] =>
      have htiles := tiles_dotEntries (n := n) (p := r.parent) (by omega) (by omega)
        (by have := hparent.1; omega) r.parent_inode.isLt
      have hrecs := blockRecs_eq htiles
      refine ⟨?_, rfl⟩
      rw [hdata c (List.mem_singleton_self c), emptyScan_firstBlock env s' (by rwa [hrecs]), hrecs]
      · rfl
      · rw [hrecs]
        rintro ⟨⟩
  | c :: d :: l => simp at hlen; omega

end Written

/-! ## The `delete` that follows -/

/-- The request names the entry that `write` has added. -/
structure SameTarget (r q : Request) : Prop where
  parent : q.parent_inode = r.parent_inode
  name : q.name = r.name
  kind : q.is_directory = r.is_directory
  name_null : q.name_null = false

/-- The state after the removal, seen as a volume. -/
structure TakenBack (s' : Fs) (r : Request) (n b : ℕ) (buf : Block) (s'' : Fs) : Prop where
  block : b ∈ (view s').dirBlocks r.parent
  perm : (blockEntries ((view s').data b)).Perm (r.entry n :: blockEntries buf)
  view_eq : view s'' = ((view s').setData b buf).dealloc n

/-- The removal succeeds and frees the inode that was written. -/
theorem Written.delete (h : Written s r n P x v₃ s') (hq : SameTarget r q)
    (hname : r.name.len ≠ 0) (env : Env) :
    (Ext2.delete env s' q).1 = 0 ∧
      ∃ b buf, TakenBack s' r n b buf (Ext2.delete env s' q).2 := by
  have hpq : q.parent = r.parent := congrArg BitVec.toNat hq.parent
  have hp' : AllocatedDir s' q.parent := hpq ▸ h.allocatedDir
  have hd : ((view s').inode r.parent).isDir = true := h.allocatedDir.2
  have hslot := h.stored.slot
  have hfind : findEntryInDir env s' q.parent q.name = n := by
    rw [hpq, hq.name]
    exact h.after.find_entry env hd h.entry_mem
  rcases h.after.delete_outcome env hp' with ⟨hbad, -⟩ | ⟨-, ⟨hf, -⟩ | ⟨e, he, hen, hfe, hdel⟩⟩
  · rw [hq.name_null, hq.name] at hbad
    rcases hbad with hnull | hlen
    · cases hnull
    · exact absurd hlen hname
  · omega
  · -- the entry found is the one that was added
    rw [hpq] at he
    have hentry : e = r.entry n :=
      List.inj_on_of_nodup_map (h.after.names _ hd) he h.entry_mem (hen.trans hq.name)
    subst hentry
    have hpslot : IsSlot q.parent := isSlot_of_isDir hp'.2
    generalize Ext2.delete env s' q = res at hdel ⊢
    cases hdel with
    | kind hne => exact absurd (h.isDir.trans hq.kind.symm) hne
    | full _ hdir hfull =>
        change isDirectoryEmpty env s' n = false at hfull
        rw [h.empty env (hq.kind ▸ hdir)] at hfull
        cases hfull
    | removed hrem hview =>
        have hblock := hrem.block
        rw [hpslot.slotOf, hpq] at hblock
        exact ⟨rfl, _, _, hblock, hrem.perm, hview⟩

namespace TakenBack

variable (h : Written s r n P x v₃ s') (ht : TakenBack s' r n b buf s'')

include h ht

/-- Every inode but the freed one and the parent is as it was in between. -/
theorem untouched (hn : m ≠ n) (hp : m ≠ r.parent) : Untouched (view s) (view s'') m := by
  have hslot : IsSlot n := h.stored.slot
  have hset : Untouched (view s') ((view s').setData b buf) m :=
    untouched_setData h.after.sound ht.block hp
  have hfree := ((view s').setData b buf).untouched_dealloc (p := n) (m := m)
    (by rwa [hslot.slotOf])
  rw [← ht.view_eq] at hfree
  exact (h.untouched hn hp).trans (hset.trans hfree)

theorem inode_self : inodeAt s'' n = EXT2Inode.zero := by
  have hslot : IsSlot n := h.stored.slot
  have hself := ((view s').setData b buf).inode_dealloc_self n
  rw [hslot.slotOf, ← ht.view_eq] at hself
  exact hself

theorem inodeUsed_eq : inodeUsed s'' = inodeUsed s := by
  change (view s'').inodeUsed = (view s).inodeUsed
  rw [ht.view_eq, Volume.inodeUsed_dealloc]
  change Function.update (view s').inodeUsed n false = _
  rw [h.added.inodeUsed_eq, h.stored.inodeUsed_eq, Function.update_idem]
  exact Function.update_eq_self_iff.mpr h.stored.unused.symm

theorem inode_eq (hp : m ≠ r.parent) : inodeAt s'' m = inodeAt s m := by
  by_cases hn : m = n
  · subst hn
    rw [ht.inode_self h]
    exact (h.before.slot_zero h.stored).symm
  · exact (ht.untouched h hn hp).inode

/-- The blocks given back are those of the inode. -/
theorem blockUsed_eq (c : ℕ) : blockUsed s'' c = (blockUsed s' c && !decide (c ∈ P)) := by
  rw [h.after.blockUsed_removed ht.block h.stored.slot ht.view_eq]
  congr 2
  apply decide_eq_decide.mpr
  rw [mem_blockRefs h.after]
  constructor
  · rintro ⟨j, hj, h0⟩
    rw [h.ptr] at hj
    cases hget : P[j]? with
    | none =>
        rw [hget] at hj
        exact absurd hj.symm h0
    | some d =>
        rw [hget] at hj
        exact List.mem_of_getElem? (hget.trans (congrArg some hj))
  · intro hc
    have hge := (h.stored.fresh c hc).1
    obtain ⟨j, hj⟩ := List.mem_iff_getElem?.mp hc
    refine ⟨j, (h.ptr j).trans ?_, by omega⟩
    rw [hj]
    rfl

/-- The parent has its entries of before, perhaps in another order. -/
theorem perm_parent :
    ((view s'').dirEntries r.parent).Perm ((view s).dirEntries r.parent) := by
  have hslot : IsSlot n := h.stored.slot
  have hfree := ((view s').setData b buf).untouched_dealloc (p := n) (m := r.parent)
    (by rw [hslot.slotOf]; exact h.parent_ne)
  rw [← ht.view_eq] at hfree
  have hback := Volume.dirEntries_setData_perm' (h.after.sound.dirBlocks_nodup _) ht.block ht.perm
  rw [hfree.dirEntries_eq]
  exact List.Perm.cons_inv (hback.symm.trans h.perm)

theorem names_eq (m : ℕ) :
    (inodeAt s'' m).isDir = (inodeAt s m).isDir ∧ nameMap s'' m = nameMap s m := by
  have hslot : IsSlot n := h.stored.slot
  by_cases hp : m = r.parent
  · subst hp
    have hd : (inodeAt s'' r.parent).isDir = true := by
      have hfree := ((view s').setData b buf).inode_dealloc_ne (p := n) (m := r.parent)
        (by rw [hslot.slotOf]; exact h.parent_ne)
      rw [← ht.view_eq] at hfree
      exact (congrArg EXT2Inode.isDir hfree).trans h.allocatedDir.2
    refine ⟨hd.trans h.parent.2.symm, funext fun name => ?_⟩
    unfold nameMap
    rw [lookup_perm (ht.perm_parent h) (h.before.names _ h.parent.2)]
  · by_cases hn : m = n
    · subst hn
      have hzero : inodeAt s'' m = inodeAt s m := ht.inode_eq h hp
      have hnone : (inodeAt s m).dirBlocks = [] := by
        rw [show inodeAt s m = EXT2Inode.zero from h.before.slot_zero h.stored]
        decide +kernel
      refine ⟨congrArg EXT2Inode.isDir hzero, funext fun name => ?_⟩
      unfold nameMap Volume.dirEntries Volume.dirBlocks
      rw [show (view s'').inode m = (view s).inode m from hzero,
        show ((view s).inode m).dirBlocks = [] from hnone]
      rfl
    · have hun := ht.untouched h hn hp
      refine ⟨congrArg EXT2Inode.isDir hun.inode, funext fun name => ?_⟩
      unfold nameMap
      rw [hun.dirEntries_eq]

end TakenBack

/-! ## What is restored -/

/-- The block bitmap and the free-block counters are as before. -/
structure SameBlocks (s s' : Fs) : Prop where
  bitmap : s'.disk blockBitmapLba = s.disk blockBitmapLba
  group : s'.group0.bg_free_blocks_count = s.group0.bg_free_blocks_count
  total : s'.superblock.s_free_blocks_count = s.superblock.s_free_blocks_count

/-- They are as before but for block `b`, which directory `p` has gained. -/
structure GainedBlock (s s' : Fs) (p b : ℕ) : Prop where
  fresh : blockUsed s b = false
  gained : b ∈ (view s').dirBlocks p
  bitmap : s'.disk blockBitmapLba = setBit (s.disk blockBitmapLba) b
  group : s'.group0.bg_free_blocks_count.toNat + 1 = s.group0.bg_free_blocks_count.toNat
  total : s'.superblock.s_free_blocks_count.toNat + 1 = s.superblock.s_free_blocks_count.toNat

/-- What a `write` under directory `p` and its undoing leave. -/
structure Undone (s s' : Fs) (p : ℕ) : Prop where
  inode_bitmap : s'.disk inodeBitmapLba = s.disk inodeBitmapLba
  inodes : ∀ m, m ≠ p → inodeAt s' m = inodeAt s m
  group_inodes : s'.group0.bg_free_inodes_count = s.group0.bg_free_inodes_count
  total_inodes : s'.superblock.s_free_inodes_count = s.superblock.s_free_inodes_count
  names : ∀ m, (inodeAt s' m).isDir = (inodeAt s m).isDir ∧ nameMap s' m = nameMap s m
  blocks : SameBlocks s s' ∨ ∃ b, GainedBlock s s' p b

/-- A bitmap block is determined by the marks it stands for. -/
theorem inodeBitmap_eq (h : inodeUsed s' = inodeUsed s) :
    s'.disk inodeBitmapLba = s.disk inodeBitmapLba := by
  apply BitVec.eq_of_getLsbD_eq
  intro i _
  have hbit := congrFun h (i + 1)
  unfold inodeUsed at hbit
  rwa [bne_iff_ne.mpr i.succ_ne_zero, Bool.true_and, Bool.true_and] at hbit

namespace TakenBack

variable (h : Written s r n P x v₃ s') (ht : TakenBack s' r n b buf s'')
  (hc : CountersExact s) (hc'' : CountersExact s'')

include h ht hc hc''

theorem blocks_eq : SameBlocks s s'' ∨ ∃ b, GainedBlock s s'' r.parent b := by
  have hback : ∀ c, blockUsed s'' c = (blockUsed s' c && !decide (c ∈ P)) := ht.blockUsed_eq h
  have hfresh : ∀ c ∈ P, blockUsed s c = false := fun c hm => (h.stored.fresh c hm).2.2
  have htotal := hc.total_blocks
  have htotal'' := hc''.total_blocks
  rcases h.blockUsed with hsame | ⟨d, hd, hgain, hused⟩
  · have hbits : ∀ c, blockUsed s'' c = blockUsed s c := fun c => by
      rw [hback, hsame]
      by_cases hm : c ∈ P
      · simp [hm, hfresh c hm]
      · simp [hm]
    have hbitmap : s''.disk blockBitmapLba = s.disk blockBitmapLba :=
      BitVec.eq_of_getLsbD_eq fun c _ => hbits c
    have hgroup := hc''.blocks
    rw [hbitmap, ← hc.blocks] at hgroup
    exact Or.inl ⟨hbitmap, BitVec.eq_of_toNat_eq hgroup, BitVec.eq_of_toNat_eq (by omega)⟩
  · -- the block gained was free, and no block of the new inode
    have hunused := hd.unused
    rw [h.stored.blockUsed_eq, Bool.or_eq_false_iff, decide_eq_false_iff_not] at hunused
    obtain ⟨hfree, hnotin⟩ := hunused
    have hbits : ∀ c, blockUsed s'' c = (blockUsed s c || decide (c = d)) := fun c => by
      rw [hback, hused]
      by_cases hcd : c = d
      · simp [hcd, hnotin]
      · by_cases hm : c ∈ P
        · simp [hm, hcd, hfresh c hm]
        · simp [hm, hcd]
    have hlt := hd.lt
    have hbitmap : s''.disk blockBitmapLba = setBit (s.disk blockBitmapLba) d :=
      BitVec.eq_of_getLsbD_eq fun c _ =>
        (hbits c).trans (getLsbD_setBit _ (by omega) c).symm
    have hgroup : s''.group0.bg_free_blocks_count.toNat + 1 =
        s.group0.bg_free_blocks_count.toNat := by
      rw [hc.blocks, hc''.blocks]
      apply clearCount_insert hlt hfree
      · exact (hbits d).trans (by simp)
      · intro c _ hcd
        exact (hbits c).trans (by rw [decide_eq_false hcd, Bool.or_false]; rfl)
    refine Or.inr ⟨d, hfree, ?_, hbitmap, hgroup, by omega⟩
    have hslot : IsSlot n := h.stored.slot
    have hfreed := ((view s').setData b buf).untouched_dealloc (p := n) (m := r.parent)
      (by rw [hslot.slotOf]; exact h.parent_ne)
    rw [← ht.view_eq] at hfreed
    rw [hfreed.dirBlocks_eq]
    exact hgain

theorem undone : Undone s s'' r.parent := by
  have hused := ht.inodeUsed_eq h
  have hbitmap : s''.disk inodeBitmapLba = s.disk inodeBitmapLba := inodeBitmap_eq hused
  have hgroup := hc''.inodes
  rw [hbitmap, ← hc.inodes] at hgroup
  have htotal := hc.total_inodes
  have htotal'' := hc''.total_inodes
  exact ⟨hbitmap, fun m hm => ht.inode_eq h hm, BitVec.eq_of_toNat_eq hgroup,
    BitVec.eq_of_toNat_eq (by omega), ht.names_eq h, ht.blocks_eq h hc hc''⟩

end TakenBack

/-- **Delete undoes write.** After a successful `write` the `delete` of the same
name succeeds and gives back everything but a block that the parent gained. -/
theorem delete_undoes_write (h : Reachable ProperCall s) (hp : AllocatedDir s r.parent)
    (hproper : r.name.Proper) (hname : r.name.len ≠ 0) (hcode : (write env s r).1 = 0)
    (hq : SameTarget r q) (env' : Env) :
    (delete env' (write env s r).2 q).1 = 0 ∧
      Undone s (delete env' (write env s r).2 q).2 r.parent := by
  have hinv : Settled (view s) := reachable_settled (h.mono fun s c hc => hc.onDirectory)
  obtain ⟨n, P, x, v₃, hwritten⟩ := hinv.written env hp hcode
  have hpq : q.parent = r.parent := congrArg BitVec.toNat hq.parent
  have h' : Reachable ProperCall (write env s r).2 :=
    h.step env (c := .write r) ⟨hp, hproper⟩
  have h'' : Reachable ProperCall (delete env' (write env s r).2 q).2 := by
    apply h'.step env' (c := .delete q)
    exact ⟨show AllocatedDir (write env s r).2 q.parent from hpq ▸ hwritten.allocatedDir,
      show q.name.Proper from hq.name ▸ hproper⟩
  obtain ⟨hdel, b, buf, hback⟩ := hwritten.delete hq hname env'
  exact ⟨hdel, hback.undone hwritten (reachable_countersExact h) (reachable_countersExact h'')⟩

/-- A directory written to the root and removed again. -/
theorem delete_undoes_write_folder :
    (delete .zero (write .zero freshFs (.folder 2 (.letter 0x64))).2
        (.folder 2 (.letter 0x64))).1 = 0 ∧
      Undone freshFs (delete .zero (write .zero freshFs (.folder 2 (.letter 0x64))).2
        (.folder 2 (.letter 0x64))).2 (Request.folder 2 (.letter 0x64)).parent := by
  have hroot : AllocatedDir freshFs (Request.folder 2 (.letter 0x64)).parent := by
    decide +kernel
  have hcode : (write .zero freshFs (.folder 2 (.letter 0x64))).1 = 0 := by
    decide +kernel
  apply delete_undoes_write (Reachable.fresh ProperCall) hroot (by decide) (by decide) hcode
  exact ⟨rfl, rfl, rfl, rfl⟩

end RendangOS.Ext2
