import RendangOS.Ext2.Failure
import RendangOS.Ext2.Trace

/-!
# The block writes of `write` and `delete`

The calls put together from the pieces of their block writes. `write` stores an
inode that nothing refers to and then enters it; `delete` removes the entry and
then takes apart an inode that nothing refers to.
-/

namespace RendangOS.Ext2

open Image RecordChain Assoc Journal

variable {env : Env} {s s' : Fs} {d₀ d : ℕ → Block} {t : ℕ} {B : Set ℕ}

/-! ## `write` -/

/-- The branches of `allocate_node`. -/
theorem allocateNode_takes (env : Env) (s : Fs) (hs : (view s).initialized = true) :
    allocateNode env s = (0, s) ∨ ∃ i < 64, (allocateNode env s).2 = takeNode env s i := by
  have hinit : ¬ s.initialized = false := by
    change s.initialized = true at hs
    simp [hs]
  unfold allocateNode
  rw [if_neg hinit]
  split
  · exact Or.inl rfl
  · rw [firstClear_eq]
    rcases Bitmap.find_clear (fun i => (readBlocks s inodeBitmapLba).getLsbD i) inodesPerGroup with
      ⟨hfind, -⟩ | ⟨i, hi, hfind, -⟩
    · rw [hfind]
      exact Or.inl rfl
    · rw [hfind]
      exact Or.inr ⟨i, hi, rfl⟩

theorem hasMagic_syncMetadata (h : s.superblock.s_magic = ext2SuperMagic) :
    HasMagic ((syncMetadata env s).disk bgdtLba) :=
  hasMagic_metaBuf _ _ h

namespace Ready

variable {n p : ℕ} {r : Request} {e : DirEntry}

/-- Filling and storing an inode that has been allocated. -/
theorem fill (env : Env) (hr : Ready d₀ n B s) (hm : MetaKept d₀ B)
    (ht : (view s).tables = groupTables) (hn : IsSlot n) (r : Request) :
    Emits (Keeps d₀ n B) s
      (Ext2.writeInode env (Ext2.writeContent env r n s).2 n (Ext2.writeContent env r n s).1) := by
  have hcontent := hr.writeContent env hm r n
  apply hcontent.trans
  apply (hcontent.ready hr).writeInode
  exact addresses_inTable_slot (hcontent.mount.tables.trans ht) hn

/-- Giving a directory a new block. -/
theorem growDir (env : Env) (hr : Ready d₀ p B s) (hm : MetaKept d₀ B)
    (ht : (view s).tables = groupTables) (hp : IsSlot p) (x : EXT2Inode) (e : DirEntry) (i : ℕ) :
    Emits (Keeps d₀ p B) s (growDir env s p x e i).2 := by
  obtain ⟨halloc, hblock⟩ := hr.allocateBlock env hm
  unfold Ext2.growDir
  dsimp only
  split
  · exact halloc
  · next h0 =>
    have ha : Addresses env (Ext2.allocateBlock env s).2 p p :=
      addresses_inTable_slot (halloc.mount.tables.trans ht) hp
    have hinode := halloc.trans
      ((halloc.ready hr).writeInode ha (growInode x i (Ext2.allocateBlock env s).1))
    exact hinode.trans ((hinode.ready hr).dataBlock (hblock h0) _)

end Ready

/-- The writes that add an entry to directory `p`. -/
inductive EntryWrites (s : Fs) (p : ℕ) (name : EntryName) : ℤ × Fs → Prop
  | split (b : ℕ) (buf : Block) : b ∈ (view s).dirBlocks p → (view s).EntryFits p name →
      EntryWrites s p name (0, writeBlocks s buf b)
  | full : ¬ (view s).EntryFits p name → EntryWrites s p name (-1, s)
  | grow (s' : Fs) : ¬ (view s).EntryFits p name → Emits (Keeps s.disk p ∅) s s' →
      EntryWrites s p name (0, s')

theorem metaKept_disk (h : (view s).MetaUsed) : MetaKept s.disk ∅ := by
  intro b hb
  refine ⟨Set.notMem_empty b, ?_⟩
  rw [blockUsed_poweredOff]
  exact h b (by simpa using hb)

theorem Settled.entryWrites (env : Env) (h : Settled (view s)) {p : ℕ} {e : DirEntry}
    (hmagic : s.superblock.s_magic = ext2SuperMagic) (hd : ((view s).inode p).isDir = true)
    (h0 : e.inode ≠ 0) (hlt : e.inode < 2 ^ 32) :
    EntryWrites s p e.name (addEntryToDir env s p e.inode e.name e.fileType) := by
  have hslot : IsSlot p := isSlot_of_isDir hd
  have ha : Addresses env s p p := addresses_inTable_slot h.sound.tables hslot
  rcases addEntryToDir_dir ha (h.sound.shape hd) h0 hlt with
    ⟨hfit, b, hb, buf, hres, -⟩ | ⟨hfit, -, hres⟩ | ⟨hfit, -, hres⟩
  · rw [hres]
    exact .split b buf hb hfit
  · rw [hres]
    exact .full hfit
  · rw [hres]
    have hr : Ready s.disk p ∅ s := ⟨.refl _ _ _, hmagic⟩
    have hgrow := hr.growDir env (metaKept_disk h.sound.meta_used) h.sound.tables hslot
      ((view s).inode p) e ((view s).dirBlocks p).length
    rcases growDir_cases ha h.sound.meta_used ((view s).inode p) e
      ((view s).dirBlocks p).length with ⟨-, hfail⟩ | ⟨b, -, -, hcode, -⟩
    · rw [hfail]
      exact .full hfit
    · generalize growDir env s p ((view s).inode p) e ((view s).dirBlocks p).length = res
        at hgrow hcode ⊢
      obtain ⟨code, s'⟩ := res
      change code = 0 at hcode
      subst hcode
      exact .grow s' hfit hgrow

/-- The writes of `write` on a directory: none, or those that store the inode
and then those that add its entry. -/
theorem Settled.write_writes (env : Env) {r : Request} (h : Settled (view s))
    (hmagic : s.superblock.s_magic = ext2SuperMagic) (hp : AllocatedDir s r.parent) :
    ((findEntryInDir env s r.parent r.name ≠ 0 ∨ (view s).NoInode) ∧
      (Ext2.write env s r).2 = s) ∨
    findEntryInDir env s r.parent r.name = 0 ∧ ∃ n P x s₃, Stored (view s) r n P x (view s₃) ∧
      Emits (Keeps s.disk n ∅) s s₃ ∧ HasMagic (s₃.disk bgdtLba) ∧
      EntryWrites s₃ r.parent r.name (Ext2.write env s r) := by
  have hslot : IsSlot r.parent := isSlot_of_isDir hp.2
  rcases write_cases env h.sound r with
    ⟨hp0, -⟩ | ⟨-, hf, hres⟩ | ⟨-, hf, hno, hres⟩ | ⟨hp0, hf, n, P, x, hnum, hst, hres⟩
  · exact absurd hp0 hslot.ne_zero
  · exact Or.inl ⟨Or.inl hf, by rw [hres]⟩
  · exact Or.inl ⟨Or.inr hno, by rw [hres]⟩
  · have hn : IsSlot n := hst.slot
    -- the inode is marked, and the group descriptor stored with it
    obtain ⟨i, hi, hnode⟩ : ∃ i < 64, (allocateNode env s).2 = takeNode env s i := by
      rcases allocateNode_takes env s h.sound.initialized with hfail | htakes
      · rw [hfail] at hnum
        exact absurd hnum.symm hn.ne_zero
      · exact htakes
    have hr : Ready s.disk n ∅ s := ⟨.refl _ _ _, hmagic⟩
    have hmark : Emits (Keeps s.disk n ∅) s (allocateNode env s).2 := by
      rw [hnode]
      exact hr.takeNode (by omega)
    have hmarked : HasMagic ((allocateNode env s).2.disk bgdtLba) := by
      rw [hnode]
      exact hasMagic_syncMetadata hmagic
    have ht : (view (allocateNode env s).2).tables = groupTables :=
      hmark.mount.tables.trans h.sound.tables
    have hkept := metaKept_disk h.sound.meta_used
    have hdef : storedState env s r = Ext2.writeInode env
        (Ext2.writeContent env r n (allocateNode env s).2).2 n
        (Ext2.writeContent env r n (allocateNode env s).2).1 := by
      unfold storedState
      dsimp only
      rw [hnum]
    have hstore : Emits (Keeps s.disk n ∅) s (storedState env s r) := by
      rw [hdef]
      exact hmark.trans ((hmark.ready hr).fill env hkept ht hn r)
    have hstored : HasMagic ((storedState env s r).disk bgdtLba) := by
      have hr₁ : Ready (allocateNode env s).2.disk n ∅ (allocateNode env s).2 :=
        ⟨.refl _ _ _, hmark.mount.magic.trans hmagic⟩
      have hkept₁ : MetaKept (allocateNode env s).2.disk ∅ := fun b hb =>
        ⟨Set.notMem_empty b, hmark.last.blocks b (Set.notMem_empty b) (hkept b hb).2⟩
      have hfill := hr₁.fill env hkept₁ ht hn r
      rw [hdef]
      rcases hfill.last.group with hsame | hmagic'
      · rw [hsame]
        exact hmarked
      · exact hmagic'
    have hpn := hst.parent_ne hp
    have hs₃ : Settled (view (storedState env s r)) := h.stored hst hslot
    have hmagic₃ := hstore.mount.magic.trans hmagic
    generalize storedState env s r = s₃ at hst hres hstore hstored hs₃ hmagic₃
    refine Or.inr ⟨hf, n, P, x, s₃, hst, hstore, hstored, ?_⟩
    have hd₃ : ((view s₃).inode r.parent).isDir = true := by
      rw [hst.inode_ne hpn]
      exact hp.2
    have hentry : EntryWrites s₃ r.parent r.name
        (addEntryToDir env s₃ r.parent n r.name r.fileType) :=
      hs₃.entryWrites env (e := r.entry n) hmagic₃ hd₃ hn.ne_zero hn.lt_word
    rw [hres]
    generalize addEntryToDir env s₃ r.parent n r.name r.fileType = a at hentry ⊢
    cases hentry with
    | split b buf hb hfit => exact .split b buf hb hfit
    | full hfit => exact .full hfit
    | grow s' hfit hgrow => exact .grow s' hfit hgrow

/-! ## `delete` -/

/-- The writes of `delete` on a directory: none, or the block without the entry
and then those that take its inode apart. -/
theorem Settled.delete_writes (env : Env) {r : Request} (h : Settled (view s))
    (hmagic : s.superblock.s_magic = ext2SuperMagic) (hp : AllocatedDir s r.parent) :
    (∃ code, code ≠ 0 ∧ Ext2.delete env s r = (code, s)) ∨
    (Ext2.delete env s r).1 = 0 ∧ ∃ e b buf s₁, Removed env s r e b buf ∧
      Emits (fun d => d = s.disk ∨ d = s₁.disk) s s₁ ∧
      view s₁ = (view s).setData b buf ∧
      view (Ext2.delete env s r).2 = (view s₁).dealloc e.inode ∧
      Emits (Keeps s₁.disk e.inode ((view s₁).refs e.inode)) s₁ (Ext2.delete env s r).2 ∧
      HasMagic ((Ext2.delete env s r).2.disk bgdtLba) := by
  have hslot : IsSlot r.parent := isSlot_of_isDir hp.2
  rcases delete_cases env h.sound (fun n hn => hn.inTable) (Or.inr hslot.inTable) with
    hrefused | ⟨e, b, buf, hrem, hres, hview⟩
  · exact Or.inl hrefused
  · refine Or.inr ⟨by rw [hres], e, b, buf, writeBlocks s buf b, hrem, ?_⟩
    have ht : IsSlot e.inode :=
      (h.sound.dirs _ hrem.is_dir).targets e (mem_of_lookup hrem.found).1
    obtain ⟨hb0, i, -, rfl⟩ := Sound.mem_dirBlocks hrem.block
    obtain ⟨hge, hlt, -⟩ := h.sound.ptr_taken hb0
    generalize (view s).ptr (slotOf r.parent) i = b at *
    have hwrite : view (writeBlocks s buf b) = (view s).setData b buf :=
      view_writeBlocks s buf hge (by omega)
    have hs₁ : Settled (view (writeBlocks s buf b)) := hwrite ▸ h.setRemoved hrem
    have hemits : Emits (fun d => d = s.disk ∨ d = (writeBlocks s buf b).disk) s
        (writeBlocks s buf b) :=
      emits_writeBlocks (Or.inl rfl) (by omega)
        (Or.inr (disk_writeBlocks_update s buf (by omega)).symm)
    have hr₁ : Ready (writeBlocks s buf b).disk e.inode
        ((view (writeBlocks s buf b)).refs e.inode) (writeBlocks s buf b) :=
      ⟨.refl _ _ _, hmagic⟩
    obtain ⟨hdealloc, hgroup⟩ := hr₁.deallocateNode env hs₁.sound.initialized hs₁.sound.tables ht
      fun c hc h0 => by
        obtain ⟨j, rfl⟩ := (EXT2Inode.mem_pointers h0).mp hc
        obtain ⟨hge', hlt', -⟩ := hs₁.sound.ptr_taken (n := e.inode) (j := j) h0
        exact ⟨⟨j, rfl, h0⟩, hge', hlt'⟩
    rw [hres] at hview ⊢
    exact ⟨hemits, hwrite, hwrite ▸ hview, hdealloc, hgroup⟩

/-! ## What stays in memory -/

theorem EntryWrites.mount {p : ℕ} {name : EntryName} {res : ℤ × Fs}
    (h : EntryWrites s p name res) : SameMount s res.2 := by
  cases h with
  | split b buf _ _ => exact ⟨rfl, rfl, rfl, fun _ _ => rfl⟩
  | full => exact .refl s
  | grow s' _ hgrow => exact hgrow.mount

theorem Settled.call_mount (env : Env) {c : Call} (h : Settled (view s))
    (hmagic : s.superblock.s_magic = ext2SuperMagic) (hc : OnDirectory s c) :
    SameMount s (c.run env s).2 := by
  cases c with
  | write r =>
      have hp : AllocatedDir s r.parent := hc
      change SameMount s (Ext2.write env s r).2
      rcases h.write_writes env hmagic hp with ⟨-, hres⟩ | ⟨-, n, P, x, s₃, -, hstore, -, hentry⟩
      · rw [hres]
        exact .refl s
      · exact hstore.mount.trans hentry.mount
  | delete r =>
      have hp : AllocatedDir s r.parent := hc
      change SameMount s (Ext2.delete env s r).2
      rcases h.delete_writes env hmagic hp with
        ⟨code, -, hres⟩ | ⟨-, e, b, buf, s₁, -, hremove, -, -, hdealloc, -⟩
      · rw [hres]
        exact .refl s
      · exact hremove.mount.trans hdealloc.mount

/-- What every run on directories keeps of the memory that `create_ext2` has set up. -/
structure Mounted (v : Volume) : Prop where
  settled : Settled v
  magic : v.superblock.s_magic = ext2SuperMagic
  others : ∀ k, k ≠ 0 → k < 8 → v.bgdt[k]? = some (EXT2BlockGroupDescriptor.ofImage 0)

theorem reachable_mounted (h : Reachable OnDirectory s) : Mounted (view s) := by
  refine h.induct Mounted (fun disk => ⟨fresh_settled disk, rfl, fun k hk hlt => ?_⟩) ?_
  · interval_cases k <;> first | exact absurd rfl hk | rfl
  · intro env s c hm hok
    have hmount := hm.settled.call_mount env hm.magic hok
    refine ⟨?_, hmount.magic.trans hm.magic, fun k hk hlt =>
      (hmount.others k hk).trans (hm.others k hk hlt)⟩
    cases c with
    | write r => exact hm.settled.write hok
    | delete r => exact hm.settled.delete hok

end RendangOS.Ext2
