import RendangOS.Ext2.Frame

/-!
# The invariant of a run

`Settled` is what every sequence of write and delete calls on directories
keeps, whatever names, sizes and contents they carry and however they end: the
block ledger is in order and nothing is held, a free inode is zero, the block
count of an inode is the number of its places in use, the names of a directory
differ, and the counters on disk are those in memory. From it follows that
every block in use is used once.
-/

namespace RendangOS.Ext2

open Image RecordChain Assoc Bitmap

/-- The inodes of the one group that `create_ext2` sets up. -/
def IsSlot (n : ℕ) : Prop := 1 ≤ n ∧ n ≤ inodesPerGroup

structure Settled (v : Volume) : Prop where
  sound : Sound IsSlot ∅ v
  free_zero : ∀ n, IsSlot n → v.inodeUsed n = false → v.inode n = EXT2Inode.zero
  counts : ∀ n, (v.inode n).i_blocks = BitVec.ofNat 32 (v.refCount n)
  names : ∀ n, (v.inode n).isDir = true → ((v.dirEntries n).map DirEntry.name).Nodup
  synced : Synced v

/-- `p` is an inode marked allocated whose `i_mode` has `EXT2_S_IFDIR`. -/
def AllocatedDir (s : Fs) (p : ℕ) : Prop :=
  inodeUsed s p = true ∧ (inodeAt s p).isDir = true

/-- The calls that name an allocated directory as their parent. -/
def OnDirectory (s : Fs) (c : Call) : Prop := AllocatedDir s c.request.parent

theorem IsSlot.inTable {n : ℕ} (h : IsSlot n) : InTable n := (inTable_iff n).mpr ⟨h.1, Or.inl h.2⟩

theorem IsSlot.slotOf {n : ℕ} (h : IsSlot n) : slotOf n = n := slotOf_of_le h.2

theorem IsSlot.ne_zero {n : ℕ} (h : IsSlot n) : n ≠ 0 := Nat.ne_of_gt h.1

theorem IsSlot.lt_word {n : ℕ} (h : IsSlot n) : n < 2 ^ 32 :=
  Nat.lt_of_le_of_lt h.2 (by decide)

/-- An inode number is its word in an entry or a request. -/
theorem IsSlot.word {n : ℕ} (h : IsSlot n) : (BitVec.ofNat 32 n).toNat = n := by
  rw [BitVec.toNat_ofNat, Nat.mod_eq_of_lt h.lt_word]

/-- Outside the table there is no directory. -/
theorem isSlot_of_isDir {s : Fs} {n : ℕ} (h : ((view s).inode n).isDir = true) : IsSlot n := by
  by_contra hn
  have hz : (view s).inode n = EXT2Inode.zero := if_neg hn
  rw [hz, Sound.zero_isDir] at h
  cases h

variable {env : Env} {s : Fs} {v v' : Volume} {n m : ℕ}

/-! ## Counting places -/

theorem refCount_of_ptr (h : ∀ j, v.ptr n j = 0) : v.refCount n = 0 :=
  clearCount_eq_zero.mpr fun j _ => decide_eq_true (h j)

theorem refs_of_zero (h : v.inode n = EXT2Inode.zero) : v.refs n = ∅ := by
  refine Set.eq_empty_of_forall_notMem fun b hb => ?_
  obtain ⟨j, hj, h0⟩ := hb
  rw [Volume.ptr, h, EXT2Inode.ptr_zero] at hj
  exact h0 hj.symm

/-- The places of a new inode are its list of blocks. -/
theorem refCount_of_list {P : List ℕ} (h : ∀ j, v.ptr n j = P[j]?.getD 0) (h0 : ∀ b ∈ P, b ≠ 0)
    (hlen : P.length ≤ 141) : v.refCount n = P.length := by
  have hused : ∀ j, v.ptr n j = 0 ↔ P.length ≤ j := fun j => by
    rw [h]
    by_cases hj : j < P.length
    · rw [List.getElem?_eq_getElem hj, Option.getD_some]
      exact ⟨fun hz => absurd hz (h0 _ (List.getElem_mem hj)), fun hle => absurd hj (by omega)⟩
    · rw [List.getElem?_eq_none (by omega), Option.getD_none]
      exact ⟨fun _ => by omega, fun _ => rfl⟩
  have hcount := clearCount_insert_list (n := 141) (List.range P.length)
    (p := fun j => decide (v.ptr n j = 0)) (q := fun _ => true) List.nodup_range
    (fun j hj => by
      have hlt := List.mem_range.mp hj
      exact ⟨by omega, decide_eq_false fun hz => by have := (hused j).mp hz; omega⟩)
    (fun j _ => by
      by_cases hj : j < P.length
      · simp [hj]
      · simp [(hused j).mpr (by omega)])
  rw [clearCount_eq_zero.mpr fun _ _ => rfl, List.length_range] at hcount
  exact hcount.symm.trans (Nat.zero_add _)

/-! ## The steps of a call -/

namespace Settled

variable {r : Request} {P : List ℕ} {x : EXT2Inode}

theorem slot_zero (h : Settled v) (hst : Stored v r n P x v') : v.inode n = EXT2Inode.zero :=
  h.free_zero n hst.slot hst.unused

/-- Filling a free inode. Its slot is zero, so nothing is leaked. -/
theorem stored (h : Settled v) (hst : Stored v r n P x v') (hp : IsSlot r.parent) :
    Settled v' where
  sound := by
    have hs := hst.sound h.sound (V := IsSlot) hst.slot hp hp.ne_zero
    rwa [refs_of_zero (h.slot_zero hst), Set.union_empty] at hs
  free_zero := fun m hm hu => by
    rw [hst.inodeUsed_eq] at hu
    have hmn : m ≠ n := by
      rintro rfl
      rw [Function.update_self] at hu
      cases hu
    rw [Function.update_of_ne hmn] at hu
    rw [hst.inode_ne hmn]
    exact h.free_zero m hm hu
  counts := fun m => by
    by_cases hm : m = n
    · subst hm
      rw [hst.inode_self, hst.i_blocks, refCount_of_list hst.ptr_self
        (fun b hb => by have := (hst.fresh b hb).1; omega) hst.length_le]
    · have hun := hst.untouched h.sound hm
      rw [hun.inode, hun.refCount_eq]
      exact h.counts m
  names := fun m hd => by
    by_cases hm : m = n
    · subst hm
      rw [hst.inode_self, hst.isDir] at hd
      rw [hst.dirEntries_eq hd hp.ne_zero]
      split
      · exact List.nodup_nil
      · exact (show [EntryName.dot, EntryName.dotdot].Nodup by decide)
    · have hun := hst.untouched h.sound hm
      rw [hun.inode] at hd
      rw [hun.dirEntries_eq]
      exact h.names m hd
  synced := by
    obtain ⟨v₂, hc, rfl⟩ := hst.content
    have hsync : Synced ((v.takeInode n).takeBlocks P) := (Synced.takeInode n).takeBlocks
    rw [hc.volume]
    exact ⟨hsync.superblock, hsync.group0⟩

/-- Rewriting one block of a directory so that its entries change to `es`. -/
theorem setData {q b : ℕ} {buf : Block} (h : Settled v) (hb : b ∈ v.dirBlocks q)
    (hsound : Sound IsSlot ∅ (v.setData b buf))
    (hnames : (((v.setData b buf).dirEntries q).map DirEntry.name).Nodup) :
    Settled (v.setData b buf) where
  sound := hsound
  free_zero := h.free_zero
  counts := fun m => by
    have hcount : (v.setData b buf).refCount m = v.refCount m := by
      unfold Volume.refCount
      simp only [ptr_setData h.sound hb]
    rw [hcount]
    exact h.counts m
  names := fun m hd => by
    by_cases hm : m = q
    · exact hm ▸ hnames
    · rw [(untouched_setData h.sound hb hm).dirEntries_eq]
      exact h.names m hd
  synced := ⟨h.synced.superblock, h.synced.group0⟩

/-- Adding an entry under a new name. -/
theorem added {q : ℕ} {e : DirEntry} {code : ℤ} (h : Settled v) (ha : Added v q e code v')
    (hu : v.inodeUsed q = true) (hd : (v.inode q).isDir = true) (hV : IsSlot e.inode)
    (hnew : e.name ∉ (v.dirEntries q).map DirEntry.name) : Settled v' := by
  have h0 : e.inode ≠ 0 := hV.ne_zero
  have hlt : e.inode < 2 ^ 32 := lt_of_le_of_lt hV.2 (by decide)
  have hsound := ha.sound h.sound hd hV h0 hlt
  have hunt : ∀ m, m ≠ q → Untouched v v' m := fun m hm => ha.untouched h.sound hm
  have hnames : code = 0 → ((v'.dirEntries q).map DirEntry.name).Nodup := by
    rintro rfl
    have hperm := (ha.dirEntries_perm h.sound hd h0 hlt).map DirEntry.name
    exact hperm.nodup_iff.mpr (List.nodup_cons.mpr ⟨hnew, h.names q hd⟩)
  cases ha with
  | split b buf _ hb _ _ => exact h.setData hb hsound (hnames rfl)
  | grow b _ hlen hb hfree =>
      have hge := hb.ge h.sound.meta_used
      have hblt := hb.lt
      have hcont := (h.sound.dirs q hd).contiguous
      have hzero : v.ptr q (v.dirBlocks q).length = 0 :=
        (EXT2Inode.ptr_direct (by omega)).trans (hcont.next_zero hlen le_rfl)
      refine ⟨hsound, fun m hm hfm => ?_, fun m => ?_, fun m hdm => ?_, ?_⟩
      · have hmq : m ≠ q := by
          rintro rfl
          change v.inodeUsed m = false at hfm
          rw [hu] at hfm
          cases hfm
        rw [(hunt m hmq).inode]
        exact h.free_zero m hm hfm
      · by_cases hm : m = q
        · subst hm
          have hptr := ptr_grow (q := m) (e := e) h.sound hlen hb
          have hcount : v.refCount m + 1 =
              (v.grow m (v.inode m) (v.dirBlocks m).length b e).refCount m := by
            refine clearCount_insert (k := (v.dirBlocks m).length) (by omega) ?_
              (decide_eq_true hzero) fun j _ hj => ?_
            · rw [hptr, if_pos rfl]
              exact decide_eq_false (by omega)
            · rw [hptr, if_neg hj]
          rw [Volume.inode_grow_self, ← hcount, BitVec.ofNat_add, ← h.counts m]
          rfl
        · rw [(hunt m hm).inode, (hunt m hm).refCount_eq]
          exact h.counts m
      · by_cases hm : m = q
        · exact hm ▸ hnames rfl
        · rw [(hunt m hm).inode] at hdm
          rw [(hunt m hm).dirEntries_eq]
          exact h.names m hdm
      · exact ⟨rfl, (Volume.group0_takeBlock (v := v) (b := b)).symm⟩
  | full => exact h

/-- Storing a directory block without the entry. -/
theorem setRemoved {e : DirEntry} {b : ℕ} {buf : Block} (h : Settled (view s))
    (hr : Removed env s r e b buf) : Settled ((view s).setData b buf) := by
  refine h.setData hr.block (h.sound.setRemoved hr) ?_
  have hperm := Volume.dirEntries_setData_perm' (h.sound.dirBlocks_nodup _) hr.block hr.perm
  exact (List.nodup_cons.mp
    ((hperm.map DirEntry.name).nodup_iff.mp (h.names _ hr.is_dir))).2

/-- Giving back an inode. -/
theorem dealloc {t : ℕ} (h : Settled v) (ht : IsSlot t) : Settled (v.dealloc t) where
  sound := h.sound.deallocate (slotOf t) t
  free_zero := fun m hm hu => by
    by_cases hmt : m = t
    · subst hmt
      have hself := v.inode_dealloc_self m
      rwa [ht.slotOf] at hself
    · rw [Volume.inodeUsed_dealloc, Function.update_of_ne hmt] at hu
      rw [v.inode_dealloc_ne (by rwa [ht.slotOf])]
      exact h.free_zero m hm hu
  counts := fun m => by
    by_cases hmt : m = t
    · subst hmt
      have hself := v.inode_dealloc_self m
      rw [ht.slotOf] at hself
      rw [refCount_of_ptr fun j => by rw [Volume.ptr, hself, EXT2Inode.ptr_zero], hself]
      rfl
    · have hun := v.untouched_dealloc (p := t) (m := m) (by rwa [ht.slotOf])
      rw [hun.inode, hun.refCount_eq]
      exact h.counts m
  names := fun m hd => by
    by_cases hmt : m = slotOf t
    · rw [hmt, v.inode_dealloc_self, Sound.zero_isDir] at hd
      cases hd
    · have hun := v.untouched_dealloc hmt
      rw [hun.inode] at hd
      rw [hun.dirEntries_eq]
      exact h.names m hd
  synced := by
    have hsync : Synced ((((v.releaseBlocks ((v.inode (slotOf t)).pointers v.data)).setInode
      (slotOf t) EXT2Inode.zero)).freeInode t) := .freeInode t
    exact hsync

end Settled

/-! ## Whole calls -/

/-- A name that `find_entry_in_dir` does not find is new. -/
theorem name_new {V : ℕ → Prop} {held : Set ℕ} {p q : ℕ} {name : EntryName}
    (h : Sound V held (view s)) (hV : ∀ n, V n → n ≠ 0) (ha : Addresses env s p q)
    (hd : ((view s).inode q).isDir = true) (hf : findEntryInDir env s p name = 0) :
    name ∉ ((view s).dirEntries q).map DirEntry.name := by
  rw [findEntryInDir_eq ha (h.shape hd), if_pos hd, inodeOf] at hf
  rw [← lookup_eq_none]
  cases hl : lookup DirEntry.name ((view s).dirEntries q) name with
  | none => rfl
  | some e =>
      rw [hl] at hf
      exact absurd hf (hV _ ((h.dirs q hd).targets e (mem_of_lookup hl).1))

/-- What is entered in a directory is found there. -/
theorem Settled.find_entry (env : Env) (h : Settled (view s)) {p : ℕ} {e : DirEntry}
    (hd : ((view s).inode p).isDir = true) (he : e ∈ (view s).dirEntries p) :
    findEntryInDir env s p e.name = e.inode := by
  have ha : Addresses env s p p := addresses_inTable_slot h.sound.tables (isSlot_of_isDir hd)
  rw [findEntryInDir_eq ha (h.sound.shape hd), if_pos hd, inodeOf,
    lookup_of_mem (h.names p hd) he]
  rfl

theorem Stored.parent_ne {r : Request} {P : List ℕ} {x : EXT2Inode}
    (hst : Stored (view s) r n P x v') (hp : AllocatedDir s r.parent) : r.parent ≠ n := by
  rintro rfl
  have hu := hst.unused
  rw [show (view s).inodeUsed r.parent = true from hp.1] at hu
  cases hu

namespace Settled

variable {r : Request}

theorem new_name {P : List ℕ} {x : EXT2Inode} (h : Settled (view s))
    (hp : AllocatedDir s r.parent) (hst : Stored (view s) r n P x v')
    (hf : findEntryInDir env s r.parent r.name = 0) :
    r.name ∉ (v'.dirEntries r.parent).map DirEntry.name := by
  have hslot : IsSlot r.parent := isSlot_of_isDir hp.2
  rw [(hst.untouched h.sound (hst.parent_ne hp)).dirEntries_eq]
  exact name_new h.sound (fun n hn => hn.ne_zero)
    (addresses_inTable_slot h.sound.tables hslot) hp.2 hf

/-- `write` on a directory changes nothing, or stores an inode and adds its entry. -/
theorem write_dir (env : Env) (h : Settled (view s)) (hp : AllocatedDir s r.parent) :
    (Ext2.write env s r).2 = s ∨
    findEntryInDir env s r.parent r.name = 0 ∧
      ∃ n P x v₃, Stored (view s) r n P x v₃ ∧
        Added v₃ r.parent (r.entry n) (Ext2.write env s r).1 (view (Ext2.write env s r).2) := by
  have hslot : IsSlot r.parent := isSlot_of_isDir hp.2
  have hcases := write_dir_cases env (r := r) h.sound (fun n h1 h64 => ⟨h1, h64⟩) hslot.inTable
    hslot (by rw [hslot.slotOf]; exact hp.2) (by rw [hslot.slotOf]; exact hp.1)
  rw [hslot.slotOf] at hcases
  rcases hcases with ⟨-, hres⟩ | ⟨-, -, hres⟩ | hst
  · exact Or.inl (congrArg Prod.snd hres)
  · exact Or.inl (congrArg Prod.snd hres)
  · exact Or.inr hst

theorem write (h : Settled (view s)) (hp : AllocatedDir s r.parent) :
    Settled (view (Ext2.write env s r).2) := by
  have hslot : IsSlot r.parent := isSlot_of_isDir hp.2
  rcases h.write_dir env hp with hres | ⟨hf, n, P, x, v₃, hst, hadd⟩
  · rw [hres]
    exact h
  · have hpn := hst.parent_ne hp
    refine (h.stored hst hslot).added hadd ?_ ?_ hst.slot (h.new_name hp hst hf)
    · rw [hst.inodeUsed_eq, Function.update_of_ne hpn]
      exact hp.1
    · rw [hst.inode_ne hpn]
      exact hp.2

/-- A directory is in use. -/
theorem allocatedDir {q : ℕ} (h : Settled (view s)) (hd : ((view s).inode q).isDir = true) :
    AllocatedDir s q := by
  refine ⟨?_, hd⟩
  by_contra hu
  rw [h.free_zero q (isSlot_of_isDir hd) (Bool.eq_false_of_not_eq_true hu), Sound.zero_isDir] at hd
  cases hd

/-- `write` frees no directory. -/
theorem write_allocatedDir (env : Env) {q : ℕ} (h : Settled (view s))
    (hp : AllocatedDir s r.parent) (hq : AllocatedDir s q) :
    AllocatedDir (Ext2.write env s r).2 q := by
  rcases h.write_dir env hp with hres | ⟨-, n, P, x, v₃, hst, hadd⟩
  · rw [hres]
    exact hq
  · have hqn : q ≠ n := by
      rintro rfl
      have hu := hst.unused
      rw [show (view s).inodeUsed q = true from hq.1] at hu
      cases hu
    constructor
    · refine (congrFun hadd.inodeUsed_eq q).trans ?_
      rw [hst.inodeUsed_eq, Function.update_of_ne hqn]
      exact hq.1
    · refine (hadd.isDir_eq q).trans ?_
      rw [hst.inode_ne hqn]
      exact hq.2

theorem delete (h : Settled (view s)) (hp : AllocatedDir s r.parent) :
    Settled (view (Ext2.delete env s r).2) := by
  have hslot : IsSlot r.parent := isSlot_of_isDir hp.2
  rcases delete_cases env h.sound (fun n hn => hn.inTable) (Or.inr hslot.inTable) with
    ⟨code, -, hres⟩ | ⟨e, b, buf, hrem, -, hview⟩
  · rw [hres]
    exact h
  · rw [hview]
    exact (h.setRemoved hrem).dealloc
      ((h.sound.dirs _ hrem.is_dir).targets e (mem_of_lookup hrem.found).1)

end Settled

/-! ## Every run -/

section Fresh

variable (disk : ℕ → Block)

theorem fresh_ptr (n j : ℕ) : (freshVolume disk).ptr n j = if n = 2 ∧ j = 0 then 21 else 0 := by
  by_cases hn : n = 2
  · subst hn
    rw [Volume.ptr, fresh_inode_root, EXT2Inode.ptr, rootInode_block, rootInode_block]
    by_cases hj : j = 0
    · subst hj
      rfl
    · simp [hj]
  · rw [Volume.ptr, fresh_inode_ne disk hn, EXT2Inode.ptr_zero, if_neg fun h => hn h.1]

theorem fresh_isDir {n : ℕ} (h : ((freshVolume disk).inode n).isDir = true) : n = 2 := by
  by_contra hn
  rw [fresh_inode_ne disk hn, Sound.zero_isDir] at h
  cases h

theorem fresh_dirOk {V : ℕ → Prop} (hV : V 2) : (freshVolume disk).DirOk V 2 where
  contiguous := fun i j hij hj hz => by
    change rootInode.block i = 0 at hz
    change rootInode.block j = 0
    rw [rootInode_block] at hz ⊢
    split at hz
    · cases hz
    · rw [if_neg (by omega)]
  no_table := by
    change rootInode.block 12 = 0
    rw [rootInode_block]
    rfl
  tiled := (fresh_shape disk).tiled
  targets := fun e he => by
    rw [fresh_dirEntries] at he
    simp only [List.mem_cons, List.not_mem_nil, or_false] at he
    rcases he with rfl | rfl <;> exact hV

theorem fresh_sound {V : ℕ → Prop} (hV : V 2) : Sound V ∅ (freshVolume disk) where
  initialized := rfl
  boot := rfl
  tables := tables_fresh disk
  meta_used := fresh_metaUsed disk
  blocks := fresh_blockCount disk
  ledger := by
    have hown : ∀ i b, (freshVolume disk).own i = some b ↔ i = (2, 0) ∧ b = 21 := by
      rintro ⟨n, j⟩ b
      rw [Volume.own_eq_some, fresh_ptr, Prod.mk.injEq]
      split
      · next h => simp only [h, and_self, true_and]; omega
      · next h => simp only [h, false_and, iff_false, not_and, not_not]; exact fun h => h.symm
    refine ⟨fun {i j b} hi hj => ?_, fun _ => Set.notMem_empty _, fun b => ?_⟩
    · rw [((hown i b).mp hi).1, ((hown j b).mp hj).1]
    · simp only [hown, Set.mem_empty_iff_false, false_or, exists_and_right, exists_eq, true_and]
      change (21 ≤ b ∧ b < 256 ∧ decide (b < 22) = true) ↔ b = 21
      rw [decide_eq_true_eq]
      omega
  dirs := fun n hn => fresh_isDir disk hn ▸ fresh_dirOk disk hV

theorem fresh_settled : Settled (freshVolume disk) where
  sound := fresh_sound disk ⟨by decide, by decide⟩
  free_zero := fun n hn hu => by
    refine fresh_inode_ne disk ?_
    rintro rfl
    cases hu
  counts := fun n => by
    by_cases hn : n = 2
    · subst hn
      have hcount : (freshVolume disk).refCount 2 = 1 :=
        refCount_of_list (P := [21]) (fun j => by
          rw [fresh_ptr]
          cases j <;> simp) (by simp) (by simp)
      rw [hcount]
      rfl
    · rw [refCount_of_ptr fun j => by rw [fresh_ptr, if_neg fun h => hn h.1],
        fresh_inode_ne disk hn]
      rfl
  names := fun n hn => by
    rw [fresh_isDir disk hn, fresh_dirEntries]
    exact (show [EntryName.dot, EntryName.dotdot].Nodup by decide)
  synced := fresh_synced disk

end Fresh

/-- An invariant that holds of a fresh volume and is kept by every admitted
call holds in every reachable state. -/
theorem Reachable.induct {ok : Fs → Call → Prop} (Inv : Volume → Prop)
    (hfresh : ∀ disk, Inv (freshVolume disk))
    (hstep : ∀ env s c, Inv (view s) → ok s c → Inv (view (c.run env s).2)) (h : Reachable ok s) :
    Inv (view s) := by
  obtain ⟨env, s₀, hrun⟩ := h
  induction hrun with
  | refl =>
      rw [view_createExt2]
      exact hfresh s₀.disk
  | tail _ hlast ih =>
      obtain ⟨env', c, hok, rfl⟩ := hlast
      exact hstep env' _ c ih hok

theorem Reachable.mono {ok ok' : Fs → Call → Prop} (hle : ∀ s c, ok s c → ok' s c)
    (h : Reachable ok s) : Reachable ok' s := by
  obtain ⟨env, s₀, hrun⟩ := h
  refine ⟨env, s₀, Relation.ReflTransGen.mono ?_ _ _ hrun⟩
  rintro _ _ ⟨env', c, hok, hres⟩
  exact ⟨env', c, hle _ _ hok, hres⟩

theorem reachable_settled (h : Reachable OnDirectory s) : Settled (view s) :=
  h.induct Settled fresh_settled fun _ _ c hinv hok => by
    cases c with
    | write r => exact hinv.write hok
    | delete r => exact hinv.delete hok

theorem Reachable.fresh (ok : Fs → Call → Prop) : Reachable ok freshFs :=
  ⟨.zero, .blank, .refl⟩

theorem Reachable.step {ok : Fs → Call → Prop} (h : Reachable ok s) (env : Env) {c : Call}
    (hok : ok s c) : Reachable ok (c.run env s).2 := by
  obtain ⟨env₀, s₀, hrun⟩ := h
  exact ⟨env₀, s₀, hrun.tail ⟨env, c, hok, rfl⟩⟩

instance (s : Fs) (p : ℕ) : Decidable (AllocatedDir s p) := by
  unfold AllocatedDir
  infer_instance

/-! ## Exclusive and exact block ownership -/

/-- The blocks inode `n` references: its non-zero direct pointers, and
`i_block[12]` with the non-zero pointers in the block it names. -/
def blockRefs (s : Fs) (n : ℕ) : List ℕ :=
  let x := inodeAt s n
  ((List.range 12).map x.block).filter (· ≠ 0) ++
    if x.block 12 = 0 then []
    else x.block 12 ::
      ((List.range 128).map (tableEntry (readBlocks s (x.block 12)))).filter (· ≠ 0)

/-- The places of an inode in their order. -/
theorem blockRefs_eq (h : Settled (view s)) (n : ℕ) :
    blockRefs s n = (List.range 141).filterMap fun j => (view s).own (n, j) := by
  have hsplit : List.range 141 = List.range 12 ++ 12 :: (List.range 128).map (13 + ·) := by
    decide +kernel
  have hown : ∀ l : List ℕ, (l.filterMap fun j => (view s).own (n, j)) =
      (l.map fun j => (view s).ptr n j).filter (· ≠ 0) := by
    intro l
    induction l with
    | nil => rfl
    | cons j l ih =>
        rw [List.filterMap_cons, List.map_cons, List.filter_cons, ih, Volume.own]
        by_cases h0 : (view s).ptr n j = 0 <;> simp [h0]
  have hdirect : ((List.range 12).map fun j => (view s).ptr n j) =
      (List.range 12).map (inodeAt s n).block := by
    refine List.map_congr_left fun j hj => ?_
    exact EXT2Inode.ptr_direct (by have := List.mem_range.mp hj; omega)
  have h12 : (view s).ptr n 12 = (inodeAt s n).block 12 := EXT2Inode.ptr_direct (by decide)
  rw [hown, hsplit, List.map_append, List.map_cons, List.map_map, List.filter_append, hdirect,
    List.filter_cons, h12]
  unfold blockRefs
  by_cases h0 : (inodeAt s n).block 12 = 0
  · have hnone : ((List.range 128).map ((fun j => (view s).ptr n j) ∘ (13 + ·))).filter (· ≠ 0) =
        [] := by
      refine List.filter_eq_nil_iff.mpr fun b hb => ?_
      obtain ⟨k, -, rfl⟩ := List.mem_map.mp hb
      have hz : (view s).ptr n (13 + k) = 0 := by
        rw [Volume.ptr, EXT2Inode.ptr, if_neg (by omega)]
        exact if_pos h0
      simpa using hz
    simp only [h0, if_true, hnone, ne_eq, not_true_eq_false, decide_false, Bool.false_eq_true,
      if_false]
  · have hread : readBlocks s ((inodeAt s n).block 12) =
        (view s).data ((inodeAt s n).block 12) := by
      obtain ⟨hge, hlt, -⟩ := h.sound.ptr_taken (h12 ▸ h0 : (view s).ptr n 12 ≠ 0)
      rw [h12] at hge hlt
      exact readBlocks_data s hge (by omega)
    have htable : ((List.range 128).map ((fun j => (view s).ptr n j) ∘ (13 + ·))) =
        (List.range 128).map (tableEntry (readBlocks s ((inodeAt s n).block 12))) := by
      refine List.map_congr_left fun k _ => ?_
      rw [hread, Function.comp_apply, Volume.ptr, EXT2Inode.ptr, if_neg (by omega),
        Nat.add_sub_cancel_left]
      exact if_neg h0
    simp only [h0, if_false, htable, ne_eq, not_false_eq_true, decide_true, if_true]

theorem mem_blockRefs (h : Settled (view s)) {b : ℕ} :
    b ∈ blockRefs s n ↔ ∃ j, (view s).ptr n j = b ∧ b ≠ 0 := by
  rw [blockRefs_eq h, List.mem_filterMap]
  constructor
  · rintro ⟨j, -, hj⟩
    exact ⟨j, Volume.own_eq_some.mp hj⟩
  · rintro ⟨j, hj⟩
    refine ⟨j, List.mem_range.mpr ?_, Volume.own_eq_some.mpr hj⟩
    by_contra hge
    rw [Volume.ptr_of_ge (by omega)] at hj
    exact hj.2 hj.1.symm

theorem nodup_blockRefs (h : Settled (view s)) (n : ℕ) : (blockRefs s n).Nodup := by
  rw [blockRefs_eq h]
  refine List.Nodup.filterMap (fun j k b hj hk => ?_) List.nodup_range
  obtain ⟨hj, h0⟩ := Volume.own_eq_some.mp hj
  obtain ⟨hk, -⟩ := Volume.own_eq_some.mp hk
  exact (h.sound.ptr_inj (hj ▸ h0) (hj.trans hk.symm)).2

theorem length_blockRefs (h : Settled (view s)) (n : ℕ) :
    (blockRefs s n).length = (view s).refCount n := by
  rw [blockRefs_eq h, List.length_filterMap_eq_countP, Volume.refCount, clearCount]
  refine List.countP_congr fun j _ => ?_
  unfold Volume.own
  by_cases h0 : (view s).ptr n j = 0 <;> simp [h0]

/-- **Blocks are owned exclusively and exactly.** After any calls on
directories the blocks marked used are the metadata blocks and those that
allocated inodes reference, no block is referenced twice, and `i_blocks` is the
number of references. -/
theorem block_ownership (h : Reachable OnDirectory s) :
    (∀ b < blocksPerGroup, blockUsed s b = true ↔
      b < rootDirBlockLba ∨ ∃ n, IsSlot n ∧ inodeUsed s n = true ∧ b ∈ blockRefs s n) ∧
    ((List.range' 1 inodesPerGroup).flatMap (blockRefs s)).Nodup ∧
    (∀ n, ∀ b ∈ blockRefs s n, rootDirBlockLba ≤ b ∧ b < blocksPerGroup) ∧
    ∀ n, (inodeAt s n).i_blocks.toNat = (blockRefs s n).length := by
  have hinv := reachable_settled h
  have hslot : ∀ n b, b ∈ blockRefs s n → IsSlot n ∧ inodeUsed s n = true := by
    intro n b hb
    obtain ⟨j, rfl, h0⟩ := (mem_blockRefs hinv).mp hb
    have hnz : inodeAt s n ≠ EXT2Inode.zero := fun hz =>
      h0 ((congrArg (fun x => EXT2Inode.ptr x (view s).data j) hz).trans EXT2Inode.ptr_zero)
    have hn : IsSlot n := by
      by_contra hn
      exact hnz (if_neg hn)
    refine ⟨hn, ?_⟩
    by_contra hu
    exact hnz (hinv.free_zero n hn (Bool.eq_false_of_not_eq_true hu))
  refine ⟨fun b hb => ?_, ?_, fun n b hb => ?_, fun n => ?_⟩
  · constructor
    · intro hu
      by_cases hlt : b < rootDirBlockLba
      · exact Or.inl hlt
      · obtain ⟨⟨n, j⟩, hj⟩ := (hinv.sound.ledger.taken_iff b).mp ⟨not_lt.mp hlt, hb, hu⟩
        have hmem := (mem_blockRefs hinv).mpr ⟨j, Volume.own_eq_some.mp hj⟩
        exact Or.inr ⟨n, (hslot n b hmem).1, (hslot n b hmem).2, hmem⟩
    · rintro (hlt | ⟨n, -, -, hmem⟩)
      · exact hinv.sound.meta_used b hlt
      · obtain ⟨j, hj⟩ := (mem_blockRefs hinv).mp hmem
        exact (hinv.sound.ledger.own_taken (Volume.own_eq_some.mpr hj)).2.2
  · refine List.nodup_flatMap.mpr ⟨fun n _ => nodup_blockRefs hinv n, ?_⟩
    refine List.Pairwise.imp (fun {n m} hnm b hbn hbm => ?_)
      (List.nodup_range' : (List.range' 1 inodesPerGroup).Nodup)
    obtain ⟨j, hj, h0⟩ := (mem_blockRefs hinv).mp hbn
    obtain ⟨k, hk, -⟩ := (mem_blockRefs hinv).mp hbm
    exact hnm (hinv.sound.ptr_inj (hj ▸ h0) (hj.trans hk.symm)).1
  · obtain ⟨j, rfl, h0⟩ := (mem_blockRefs hinv).mp hb
    obtain ⟨hge, hlt, -⟩ := hinv.sound.ptr_taken h0
    exact ⟨hge, hlt⟩
  · rw [show (inodeAt s n).i_blocks = _ from hinv.counts n, length_blockRefs hinv]
    have hle : (view s).refCount n ≤ 141 := clearCount_le _ 141
    rw [BitVec.toNat_ofNat, Nat.mod_eq_of_lt (by omega)]

/-- A file of three bytes in the root directory. -/
def smallFile : Call := .write (.file 2 (.letter 0x61) [1, 2, 3])

theorem block_ownership_small_file :
    ∃ n, IsSlot n ∧ inodeUsed (smallFile.run .zero freshFs).2 n = true ∧
      22 ∈ blockRefs (smallFile.run .zero freshFs).2 n := by
  have hreach : Reachable OnDirectory (smallFile.run .zero freshFs).2 :=
    (Reachable.fresh OnDirectory).step .zero
      (show AllocatedDir freshFs 2 by decide +kernel)
  have hown := (block_ownership hreach).1 22 (by decide)
  exact (hown.mp (by decide +kernel)).resolve_left (by decide)

end RendangOS.Ext2
