import RendangOS.Ext2.Undo
import RendangOS.Ext2.ReadBack

/-!
# Replacing a file

A file is replaced by removing it and writing it again. The removal of a record
joins it to its predecessor, where the same name fits again; but the first
record of a block is only emptied, and a scan for slack does not count an empty
record as free. In a directory that is otherwise full the second call fails.
-/

namespace RendangOS.Ext2

open Image RecordChain Assoc Bitmap

variable {env env' : Env} {s s' : Fs} {r q : Request} {n p : ℕ} {e : DirEntry} {b : ℕ}
  {buf : Block}

/-- `name` is the entry of an allocated inode `n` that is no directory. -/
def LiveFile (s : Fs) (p : ℕ) (name : EntryName) (n : ℕ) : Prop :=
  (∃ e ∈ (view s).dirEntries p, e.name = name ∧ e.inode = n) ∧
    inodeUsed s n = true ∧ (inodeAt s n).isDir = false

/-- The entry `name` of directory `p` is the first record of its block. -/
def Leads (s : Fs) (p : ℕ) (name : EntryName) : Prop :=
  ∃ b ∈ (view s).dirBlocks p, ∃ r ∈ (blockRecs ((view s).data b)).head?,
    r.item.any (fun e => decide (e.name = name)) = true

/-- The file `n` can be removed and written again under its name: the count of
free inodes does not wrap around to zero, and the name has a record before it in
its block, or fits elsewhere in the directory, or the directory can grow by a
block that the new content leaves. -/
def Replaceable (s : Fs) (r : Request) (n : ℕ) : Prop :=
  s.group0.bg_free_inodes_count + 1 ≠ 0 ∧
    (¬ Leads s r.parent r.name ∨ (view s).EntryFits r.parent r.name ∨
      (∃ i < 12, (inodeAt s r.parent).block i = 0) ∧
        r.fileBlocks < s.group0.bg_free_blocks_count.toNat + (inodeAt s n).i_blocks.toNat)

/-! ## Room after the removal -/

theorem any_name_iff {item : Option DirEntry} {name : EntryName} :
    item.any (fun e => decide (e.name = name)) = true ↔ ∃ e ∈ item, e.name = name := by
  cases item <;> simp

/-- Records of one name lie in one block. -/
theorem Settled.block_unique (h : Settled (view s)) (hd : ((view s).inode p).isDir = true)
    {name : EntryName} {c : ℕ} (hb : b ∈ (view s).dirBlocks p) (hc : c ∈ (view s).dirBlocks p)
    (hbn : name ∈ (blockEntries ((view s).data b)).map DirEntry.name)
    (hcn : name ∈ (blockEntries ((view s).data c)).map DirEntry.name) : b = c := by
  have hnames := h.names p hd
  unfold Volume.dirEntries at hnames
  rw [List.map_flatMap] at hnames
  have hdisjoint := (List.nodup_flatMap.mp hnames).2
  have hsymm : Std.Symm (Function.onFun List.Disjoint
      fun c => (blockEntries ((view s).data c)).map DirEntry.name) :=
    ⟨fun _ _ hdis _ hx hy => hdis hy hx⟩
  by_contra hne
  exact hdisjoint.forall hb hc hne hbn hcn

/-- The scan for slack after the removal of a name. -/
theorem Settled.entryFits_removed (h : Settled (view s)) (hr : Removed env s r e b buf)
    (hp : IsSlot r.parent) :
    ((view s).setData b buf).EntryFits r.parent r.name ↔
      ¬ Leads s r.parent r.name ∨ (view s).EntryFits r.parent r.name := by
  have hd := hr.is_dir
  have hb := hr.block
  rw [hp.slotOf] at hd hb
  have hself : ((view s).setData b buf).data b = buf := Function.update_self ..
  have hother : ∀ c, c ≠ b → ((view s).setData b buf).data c = (view s).data c := fun c hc =>
    Function.update_of_ne hc ..
  have htiles : Tiles ((view s).data b) 0 (blockRecs ((view s).data b)) :=
    (h.sound.shape hd).tiled b hb
  -- the record that goes is as long as its name needs
  have hroom : HasRoom buf r.name ↔
      (∀ r' ∈ (blockRecs ((view s).data b)).head?,
        r'.item.any (fun e => decide (e.name = r.name)) = false) ∨
      HasRoom ((view s).data b) r.name := by
    apply room_remove (fun r' hr' => (htiles.record r' hr').1) _ hr.chain
    intro r' hr' hany
    obtain ⟨d, hd', hname⟩ := any_name_iff.mp hany
    obtain ⟨hfit, hneed⟩ := htiles.record r' hr'
    rw [← hname, ← hneed d hd']
    exact hfit
  have hmem : r.name ∈ (blockEntries ((view s).data b)).map DirEntry.name := by
    have he := hr.perm.mem_iff.mpr List.mem_cons_self
    have hname := (mem_of_lookup hr.found).2
    exact hname ▸ List.mem_map_of_mem he
  have hleads : Leads s r.parent r.name ↔
      ¬ ∀ r' ∈ (blockRecs ((view s).data b)).head?,
        r'.item.any (fun e => decide (e.name = r.name)) = false := by
    constructor
    · rintro ⟨c, hc, r', hr', hany⟩ hall
      obtain ⟨d, hd', hname⟩ := any_name_iff.mp hany
      have hcn : r.name ∈ (blockEntries ((view s).data c)).map DirEntry.name := by
        rw [← hname]
        apply List.mem_map_of_mem
        exact List.mem_filterMap.mpr ⟨r', List.mem_of_mem_head? hr', hd'⟩
      have hbc := h.block_unique hd hb hc hmem hcn
      subst hbc
      rw [hall r' hr'] at hany
      cases hany
    · intro hnot
      push Not at hnot
      obtain ⟨r', hr', hany⟩ := hnot
      exact ⟨b, hb, r', hr', by simpa using hany⟩
  rw [hleads, not_not]
  constructor
  · rintro ⟨c, hc, hfit⟩
    by_cases hcb : c = b
    · rw [hcb, hself] at hfit
      rcases hroom.mp hfit with hfirst | hfit
      · exact Or.inl hfirst
      · exact Or.inr ⟨b, hb, hfit⟩
    · rw [hother c hcb] at hfit
      exact Or.inr ⟨c, hc, hfit⟩
  · rintro (hfirst | ⟨c, hc, hfit⟩)
    · refine ⟨b, hb, ?_⟩
      rw [hself]
      exact hroom.mpr (Or.inl hfirst)
    · refine ⟨c, hc, ?_⟩
      by_cases hcb : c = b
      · rw [hcb, hself]
        exact hroom.mpr (Or.inr (hcb ▸ hfit))
      · rwa [hother c hcb]

/-! ## The counters after the removal -/

theorem Volume.freeInodeCount_dealloc (v : Volume) (n : ℕ) :
    (v.dealloc n).group0.bg_free_inodes_count = v.group0.bg_free_inodes_count + 1 := by
  have hrel := Volume.releaseBlocks_induct (v := v) (fun v => v.group0.bg_free_inodes_count)
    (fun v b => by rw [Volume.group0_freeBlock]) ((v.inode (slotOf n)).pointers v.data)
  rw [dealloc, Volume.group0_freeInode, ← hrel]
  rfl

/-- The removal of a file gives back as many blocks as its inode counts. -/
theorem Settled.freeBlocks_removed {p : ℕ} (h : Settled (view s)) (h' : Settled (view s'))
    (hb : b ∈ (view s).dirBlocks p) (hn : IsSlot n)
    (hview : view s' = ((view s).setData b buf).dealloc n) :
    (view s').freeBlocks = (view s).freeBlocks + (inodeAt s n).i_blocks.toNat := by
  have hused := h.blockUsed_removed hb hn hview
  have hcount : clearCount (view s).blockUsed 256 + (blockRefs s n).length =
      clearCount (view s').blockUsed 256 := by
    apply clearCount_insert_list _ (nodup_blockRefs h n)
    · intro c hc
      obtain ⟨j, rfl, h0⟩ := (mem_blockRefs h).mp hc
      exact ⟨(h.sound.ptr_taken h0).2.1, (hused _).trans (by simp [hc])⟩
    · intro c _
      change blockUsed s c = (blockUsed s' c || decide (c ∈ blockRefs s n))
      rw [hused]
      by_cases hc : c ∈ blockRefs s n
      · obtain ⟨j, rfl, h0⟩ := (mem_blockRefs h).mp hc
        have htaken : blockUsed s ((view s).ptr n j) = true := (h.sound.ptr_taken h0).2.2
        simp [hc, htaken]
      · simp [hc]
  have hle : (view s).refCount n ≤ 141 := clearCount_le _ 141
  have hblocks : (inodeAt s n).i_blocks.toNat = (blockRefs s n).length := by
    rw [show (inodeAt s n).i_blocks = _ from h.counts n, length_blockRefs h, BitVec.toNat_ofNat,
      Nat.mod_eq_of_lt (by omega)]
  rw [h'.sound.blocks.group, h.sound.blocks.group, hblocks]
  omega

/-! ## The state after the removal -/

/-- `delete` has removed the live file `e` of the directory that `q` names. -/
structure FileRemoved (env : Env) (s : Fs) (q : Request) (e : DirEntry) (b : ℕ) (buf : Block)
    (s' : Fs) : Prop where
  before : Settled (view s)
  parent : AllocatedDir s q.parent
  entry : e ∈ (view s).dirEntries q.parent
  file : (inodeAt s e.inode).isDir = false
  removed : Removed env s q e b buf
  view_eq : view s' = ((view s).setData b buf).dealloc e.inode
  after : Settled (view s')

theorem Settled.fileRemoved (h : Settled (view s)) (hp : AllocatedDir s q.parent)
    (he : e ∈ (view s).dirEntries q.parent) (hen : e.name = q.name)
    (hfile : (inodeAt s e.inode).isDir = false) (hdel : (Ext2.delete env s q).1 = 0) :
    ∃ b buf, FileRemoved env s q e b buf (Ext2.delete env s q).2 := by
  have hafter : Settled (view (Ext2.delete env s q).2) := h.delete hp
  rcases h.delete_outcome env hp with ⟨-, hres⟩ | ⟨-, ⟨-, hres⟩ | ⟨d, hd, hdn, -, hout⟩⟩
  · rw [hres] at hdel
    cases hdel
  · rw [hres] at hdel
    cases hdel
  · have hde : d = e := List.inj_on_of_nodup_map (h.names _ hp.2) hd he (hdn.trans hen.symm)
    subst hde
    generalize Ext2.delete env s q = res at hdel hafter hout ⊢
    cases hout with
    | kind => cases hdel
    | full => cases hdel
    | removed hrem hview => exact ⟨_, _, h, hp, hd, hfile, hrem, hview, hafter⟩

namespace FileRemoved

theorem parent_slot (h : FileRemoved env s q e b buf s') : IsSlot q.parent :=
  isSlot_of_isDir h.parent.2

theorem slot (h : FileRemoved env s q e b buf s') : IsSlot e.inode :=
  h.before.target_slot h.parent.2 h.entry

theorem block (h : FileRemoved env s q e b buf s') : b ∈ (view s).dirBlocks q.parent := by
  have hb := h.removed.block
  rwa [h.parent_slot.slotOf] at hb

theorem parent_ne (h : FileRemoved env s q e b buf s') : q.parent ≠ e.inode := by
  intro heq
  have hfile := h.file
  rw [← heq, h.parent.2] at hfile
  cases hfile

/-- Giving the inode back leaves the directory as the removal has left it. -/
theorem untouched_parent (h : FileRemoved env s q e b buf s') :
    Untouched ((view s).setData b buf) (view s') q.parent := by
  rw [h.view_eq]
  apply Volume.untouched_dealloc
  rw [h.slot.slotOf]
  exact h.parent_ne

theorem inode_parent (h : FileRemoved env s q e b buf s') :
    inodeAt s' q.parent = inodeAt s q.parent := h.untouched_parent.inode

theorem inodeUsed_eq (h : FileRemoved env s q e b buf s') :
    inodeUsed s' = Function.update (inodeUsed s) e.inode false := by
  change (view s').inodeUsed = _
  rw [h.view_eq, Volume.inodeUsed_dealloc]
  rfl

theorem allocatedDir (h : FileRemoved env s q e b buf s') : AllocatedDir s' q.parent := by
  constructor
  · rw [h.inodeUsed_eq, Function.update_of_ne h.parent_ne]
    exact h.parent.1
  · rw [h.inode_parent]
    exact h.parent.2

theorem name_eq (h : FileRemoved env s q e b buf s') : e.name = q.name :=
  (mem_of_lookup h.removed.found).2

/-- The name is not found any more. -/
theorem name_gone (h : FileRemoved env s q e b buf s') (env' : Env) :
    findEntryInDir env' s' q.parent q.name = 0 := by
  by_contra hf
  obtain ⟨c, hc, hcn, -⟩ := h.after.found_entry h.allocatedDir.2 hf
  rw [h.untouched_parent.dirEntries_eq] at hc
  have hperm := Volume.dirEntries_setData_perm' (h.before.sound.dirBlocks_nodup q.parent) h.block
    h.removed.perm
  have hnew := (List.nodup_cons.mp
    ((hperm.map DirEntry.name).nodup_iff.mp (h.before.names _ h.parent.2))).1
  apply hnew
  rw [h.name_eq, ← hcn]
  exact List.mem_map_of_mem hc

/-- An inode is free, so an allocation can only fail on the counter. -/
theorem noInode_iff (h : FileRemoved env s q e b buf s') :
    (view s').NoInode ↔ s.group0.bg_free_inodes_count + 1 = 0 := by
  have hcount : s'.group0.bg_free_inodes_count = s.group0.bg_free_inodes_count + 1 := by
    change (view s').group0.bg_free_inodes_count = _
    rw [h.view_eq, Volume.freeInodeCount_dealloc]
    rfl
  rw [← hcount]
  constructor
  · rintro (h0 | hall)
    · exact BitVec.eq_of_toNat_eq h0
    · have hfull := hall e.inode h.slot.1 h.slot.2
      change inodeUsed s' e.inode = true at hfull
      rw [h.inodeUsed_eq, Function.update_self] at hfull
      cases hfull
  · intro h0
    exact Or.inl (congrArg BitVec.toNat h0)

theorem entryFits_iff (h : FileRemoved env s q e b buf s') :
    (view s').EntryFits q.parent q.name ↔
      ¬ Leads s q.parent q.name ∨ (view s).EntryFits q.parent q.name := by
  rw [h.untouched_parent.entryFits_iff]
  exact h.before.entryFits_removed h.removed h.parent_slot

theorem freeBlocks_eq (h : FileRemoved env s q e b buf s') :
    s'.group0.bg_free_blocks_count.toNat =
      s.group0.bg_free_blocks_count.toNat + (inodeAt s e.inode).i_blocks.toNat :=
  h.before.freeBlocks_removed h.after h.block h.slot h.view_eq

end FileRemoved

/-! ## Removing and writing again -/

/-- What the removal leaves is enough for the new file. -/
theorem FileRemoved.accepted_iff (h : FileRemoved env s q e b buf s') (env' : Env)
    (hparent : r.parent = q.parent) (hname : r.name = q.name) (hr : r.is_directory = false)
    (hsize : r.dataBlocks ≤ 140) : Accepted env' s' r ↔ Replaceable s r e.inode := by
  have hgone := h.name_gone env'
  have hfits := h.entryFits_iff
  have hinode := h.inode_parent
  rw [← hname, ← hparent] at hgone hfits
  rw [← hparent] at hinode
  unfold Accepted Enterable Replaceable
  rw [h.noInode_iff, hfits, hinode, h.freeBlocks_eq, demand_eq hr hsize, or_assoc]
  exact ⟨fun hacc => hacc.2, fun hacc => ⟨hgone, hacc⟩⟩

/-- **A file is replaced by `delete` and `write`** exactly when its record does
not lead its block, or there is other room for the entry, and the count of free
inodes does not wrap around. -/
theorem overwrite_iff (h : Reachable OnDirectory s) (hp : AllocatedDir s r.parent)
    (hfile : LiveFile s r.parent r.name n) (hqp : q.parent_inode = r.parent_inode)
    (hqn : q.name = r.name) (hdel : (delete env s q).1 = 0) (hr : r.is_directory = false)
    (hsize : r.fileBlocks ≤ (blockRefs s n).length) :
    (write env' (delete env s q).2 r).1 = 0 ↔ Replaceable s r n := by
  have hinv : Settled (view s) := reachable_settled h
  have hpq : q.parent = r.parent := congrArg BitVec.toNat hqp
  have hblocks : r.dataBlocks ≤ 140 := by
    have hlen := length_blockRefs hinv n
    have hle : (view s).refCount n ≤ 141 := clearCount_le _ 141
    unfold Request.fileBlocks at hsize
    split at hsize <;> omega
  rw [← hpq] at hp hfile
  rw [← hqn] at hfile
  obtain ⟨⟨e, he, hen, rfl⟩, -, hnotdir⟩ := hfile
  obtain ⟨b, buf, hrem⟩ := hinv.fileRemoved hp he hen hnotdir hdel
  have hp' := hrem.allocatedDir
  rw [hpq] at hp'
  rw [hrem.after.write_zero_iff env' hp']
  exact hrem.accepted_iff env' hpq.symm hqn.symm hr hblocks

/-- The second of the twelve files in the full root directory leads its block. -/
theorem crowdRoot_replace :
    (findEntryInDir .zero (runCalls crowdRoot freshFs) 2 (.long 1) = 13 ∧
      AllocatedDir (runCalls crowdRoot freshFs) 2 ∧
      inodeUsed (runCalls crowdRoot freshFs) 13 = true ∧
      (inodeAt (runCalls crowdRoot freshFs) 13).isDir = false) ∧
    (delete .zero (runCalls crowdRoot freshFs) (.file 2 (.long 1) [])).1 = 0 ∧
    (write .zero (delete .zero (runCalls crowdRoot freshFs) (.file 2 (.long 1) [])).2
      (.file 2 (.long 1) [])).1 = -1 := by
  decide +kernel

theorem crowdRoot_reachable : Reachable OnDirectory (runCalls crowdRoot freshFs) := by
  refine Reachable.mono (fun s c hc => hc.1) (?_ : Reachable TreeCall _)
  apply reachable_onRoot (Reachable.fresh TreeCall)
  intro c hc
  obtain ⟨k, hk, rfl⟩ := List.mem_map.mp hc
  exact ⟨rfl, EntryName.long_proper k⟩

theorem crowdRoot_liveFile : LiveFile (runCalls crowdRoot freshFs) 2 (.long 1) 13 := by
  obtain ⟨hfind, hroot, hused, hfile⟩ := crowdRoot_replace.1
  have hreach := crowdRoot_reachable
  generalize runCalls crowdRoot freshFs = s at *
  obtain ⟨e, he, hname, hinode⟩ := (reachable_settled hreach).found_entry hroot.2
    (show findEntryInDir .zero s 2 (.long 1) ≠ 0 by rw [hfind]; decide)
  exact ⟨⟨e, he, hname, hinode.symm.trans hfind⟩, hused, hfile⟩

/-- The empty file `n` is removed from a full root directory, and cannot be
written again. -/
theorem overwrite_loses_file :
    Reachable OnDirectory (runCalls crowdRoot freshFs) ∧
      LiveFile (runCalls crowdRoot freshFs) 2 (.long 1) 13 ∧
      (delete .zero (runCalls crowdRoot freshFs) (.file 2 (.long 1) [])).1 = 0 ∧
      (write .zero (delete .zero (runCalls crowdRoot freshFs) (.file 2 (.long 1) [])).2
        (.file 2 (.long 1) [])).1 = -1 :=
  ⟨crowdRoot_reachable, crowdRoot_liveFile, crowdRoot_replace.2⟩

/-- The condition fails there. -/
theorem overwrite_crowdRoot :
    ¬ Replaceable (runCalls crowdRoot freshFs) (.file 2 (.long 1) []) 13 := by
  obtain ⟨⟨-, hroot, -⟩, hdel, hwrite⟩ := crowdRoot_replace
  have hreach := crowdRoot_reachable
  have hlive := crowdRoot_liveFile
  generalize runCalls crowdRoot freshFs = s at *
  have hparent : AllocatedDir s (Request.file 2 (.long 1) []).parent := hroot
  have hfile : LiveFile s (Request.file 2 (.long 1) []).parent
      (Request.file 2 (.long 1) []).name 13 := hlive
  intro hrep
  have hcode : (write .zero (delete .zero s (.file 2 (.long 1) [])).2
      (.file 2 (.long 1) [])).1 = 0 :=
    (overwrite_iff hreach hparent hfile rfl rfl hdel rfl (Nat.zero_le _)).mpr hrep
  rw [hcode] at hwrite
  cases hwrite

end RendangOS.Ext2
