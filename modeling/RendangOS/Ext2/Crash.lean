import RendangOS.Ext2.CallTrace
import RendangOS.Ext2.Counters

/-!
# Power cuts

Between two block writes of a call the tree on the disk is the tree before the
call, or that of a state in which the inode the call is working on is in no
directory. The exception is a directory that gets another block: `growDir`
stores the parent with the new pointer before it stores the block.
-/

namespace RendangOS.Ext2

open Image RecordChain Assoc Journal

variable {env : Env} {s s' : Fs} {v v' : Volume} {held : Set ℕ} {n p q t : ℕ} {r : Request}
  {e : DirEntry} {name : EntryName} {c : Call}

/-! ## `"."` and `".."` -/

theorem EntryName.not_proper : ¬ name.Proper ↔ name = .dot ∨ name = .dotdot := by
  unfold EntryName.Proper
  tauto

/-- The dot entries name the directory they are in and the one it is entered in. -/
structure Dots (v : Volume) : Prop where
  self : ∀ d e, (v.inode d).isDir = true → e ∈ v.dirEntries d → e.name = .dot → e.inode = d
  root : ∀ e ∈ v.dirEntries rootInodeNo, e.name = .dotdot → e.inode = rootInodeNo
  up : ∀ d e q name, (v.inode d).isDir = true → e ∈ v.dirEntries d → e.name = .dotdot →
    v.link (q, name) = some d → e.inode = q

theorem link_mem (h : v.link (q, name) = some n) :
    (v.inode q).isDir = true ∧ name.Proper ∧
      ∃ e ∈ v.dirEntries q, e.name = name ∧ e.inode = n := by
  unfold Volume.link at h
  split at h
  · next hd =>
    obtain ⟨e, hlook, hn⟩ := Option.map_eq_some_iff.mp h
    obtain ⟨hmem, hname⟩ := mem_of_lookup hlook
    exact ⟨hd.1, hd.2, e, hmem, hname, hn⟩
  · cases h

namespace Dots

/-- With fewer directories and fewer entries. -/
theorem sub (h : Dots v) (hs : Settled v)
    (hdir : ∀ d, (v'.inode d).isDir = true → (v.inode d).isDir = true)
    (hsub : ∀ d, (v'.inode d).isDir = true → ∀ e ∈ v'.dirEntries d, e ∈ v.dirEntries d)
    (hroot : (v'.inode rootInodeNo).isDir = true) : Dots v' where
  self := fun d e hd he => h.self d e (hdir d hd) (hsub d hd e he)
  root := fun e he => h.root e (hsub _ hroot e he)
  up := fun d e q name hd he hname hlink => by
    obtain ⟨hq, hproper, e', he', rfl, rfl⟩ := link_mem hlink
    exact h.up _ e q e'.name (hdir _ hd) (hsub _ hd e he) hname
      (hs.link_entry (hdir q hq) (hsub q hq e' he') hproper)

theorem unlinked {b : ℕ} {buf : Block} (h : Dots (view s)) (ht : Tree held (view s))
    (hr : Removed env s r e b buf) : Dots ((view s).setData b buf) := by
  have hperm := Volume.dirEntries_setData_perm' (ht.settled.sound.dirBlocks_nodup _) hr.block
    hr.perm
  have hroot : (((view s).setData b buf).inode rootInodeNo).isDir = true := ht.root
  refine h.sub ht.settled (fun _ hd => hd) (fun d _ e' he' => ?_) hroot
  by_cases hdq : d = slotOf r.parent
  · subst hdq
    exact hperm.mem_iff.mpr (List.mem_cons_of_mem _ he')
  · rwa [(untouched_setData ht.settled.sound hr.block hdq).dirEntries_eq] at he'

theorem dealloc (h : Dots v) (ht : Tree held v) (hn : n ∈ held) : Dots (v.dealloc n) := by
  obtain ⟨hgt, hle, -⟩ := ht.links.held_taken hn
  have hslot : IsSlot n := ⟨by omega, hle⟩
  have hne : ∀ d, ((v.dealloc n).inode d).isDir = true → d ≠ slotOf n := by
    rintro d hd rfl
    rw [Volume.inode_dealloc_self, Sound.zero_isDir] at hd
    cases hd
  obtain ⟨held', ht'⟩ := ht.dealloc hn
  apply h.sub ht.settled _ _ ht'.root
  · intro d hd
    rwa [(v.untouched_dealloc (hne d hd)).inode] at hd
  · intro d hd e he
    rwa [(v.untouched_dealloc (hne d hd)).dirEntries_eq] at he

theorem stored {P : List ℕ} {x : EXT2Inode} (h : Dots v) (ht : Tree held v)
    (hst : Stored v r n P x v') (hp : IsSlot r.parent) :
    Dots v' ∧ ∀ e ∈ v'.dirEntries n, (v'.inode n).isDir = true → e.name = .dotdot →
      e.inode = r.parent := by
  have hp0 : r.parent ≠ 0 := hp.ne_zero
  have hnew : (v'.inode n).isDir = true → ∀ e ∈ v'.dirEntries n,
      e = ⟨.dot, n, ext2FtDir⟩ ∨ e = ⟨.dotdot, r.parent, ext2FtDir⟩ := by
    intro hd e he
    rw [hst.inode_self, hst.isDir] at hd
    rw [hst.dirEntries_eq hd hp0] at he
    split at he
    · cases he
    · simpa using he
  have hold : ∀ d, d ≠ n → Untouched v v' d := fun d hd => hst.untouched ht.settled.sound hd
  -- no entry names the new inode yet
  have hlink : ∀ q name d, v'.link (q, name) = some d → v.link (q, name) = some d ∧ d ≠ n := by
    intro q name d hd
    have hqn : q ≠ n := by
      rintro rfl
      obtain ⟨hq, hproper, e, he, rfl, -⟩ := link_mem hd
      rcases hnew hq e he with rfl | rfl
      · exact hproper.1 rfl
      · exact hproper.2 rfl
    rw [(hold q hqn).link_eq name] at hd
    refine ⟨hd, ?_⟩
    rintro rfl
    have hu := (ht.links.own_taken hd).2.2
    rw [hst.unused] at hu
    cases hu
  have hroot : rootInodeNo ≠ n := by
    rintro rfl
    have hu := ht.root_used
    rw [hst.unused] at hu
    cases hu
  refine ⟨⟨?_, ?_, ?_⟩, ?_⟩
  · intro d e hd he hname
    by_cases hdn : d = n
    · subst hdn
      rcases hnew hd e he with rfl | rfl
      · rfl
      · exact absurd hname (show EntryName.dotdot ≠ .dot by decide)
    · rw [(hold d hdn).inode] at hd
      rw [(hold d hdn).dirEntries_eq] at he
      exact h.self d e hd he hname
  · intro e he
    rw [(hold _ hroot).dirEntries_eq] at he
    exact h.root e he
  · intro d e q name hd he hname hl
    obtain ⟨hl, hdn⟩ := hlink q name d hl
    rw [(hold d hdn).inode] at hd
    rw [(hold d hdn).dirEntries_eq] at he
    exact h.up d e q name hd he hname hl
  · intro e he hd hname
    rcases hnew hd e he with rfl | rfl
    · exact absurd hname (show EntryName.dot ≠ .dotdot by decide)
    · rfl

/-- A new entry under a proper name, of an inode whose `".."` names this directory. -/
theorem added {code : ℤ} (h : Dots v) (hs : Settled v) (ha : Added v q e code v')
    (hd : (v.inode q).isDir = true) (h0 : e.inode ≠ 0) (hlt : e.inode < 2 ^ 32)
    (hn : e.name.Proper)
    (hup : ∀ e' ∈ v.dirEntries e.inode, (v.inode e.inode).isDir = true → e'.name = .dotdot →
      e'.inode = q) : Dots v' := by
  rcases ha.code with rfl | rfl
  · have hperm := ha.dirEntries_perm hs.sound hd h0 hlt
    have hentry : ∀ d e', e' ∈ v'.dirEntries d → e' ∈ v.dirEntries d ∨ d = q ∧ e' = e := by
      intro d e' he'
      by_cases hdq : d = q
      · subst hdq
        rcases List.mem_cons.mp (hperm.mem_iff.mp he') with rfl | hold
        · exact Or.inr ⟨rfl, rfl⟩
        · exact Or.inl hold
      · rw [(ha.untouched hs.sound hdq).dirEntries_eq] at he'
        exact Or.inl he'
    have hdots : ∀ d e', e' ∈ v'.dirEntries d → ¬ e'.name.Proper → e' ∈ v.dirEntries d := by
      intro d e' he' hnot
      rcases hentry d e' he' with hold | ⟨-, rfl⟩
      · exact hold
      · exact absurd hn hnot
    refine ⟨?_, ?_, ?_⟩
    · intro d e' hd' he' hname
      rw [ha.isDir_eq] at hd'
      exact h.self d e' hd' (hdots d e' he' (EntryName.not_proper.mpr (Or.inl hname))) hname
    · intro e' he' hname
      exact h.root e' (hdots _ e' he' (EntryName.not_proper.mpr (Or.inr hname))) hname
    · intro d e' m name hd' he' hname hlink
      rw [ha.isDir_eq] at hd'
      have hold := hdots d e' he' (EntryName.not_proper.mpr (Or.inr hname))
      obtain ⟨hm, hproper, e'', he'', rfl, rfl⟩ := link_mem hlink
      rw [ha.isDir_eq] at hm
      rcases hentry m e'' he'' with hmem | ⟨rfl, rfl⟩
      · exact h.up _ e' m e''.name hd' hold hname (hs.link_entry hm hmem hproper)
      · exact hup e' hold hd' hname
  · cases ha
    exact h

end Dots

theorem fresh_dots (disk : ℕ → Block) : Dots (freshVolume disk) := by
  have hentry : ∀ d e, ((freshVolume disk).inode d).isDir = true →
      e ∈ (freshVolume disk).dirEntries d → d = rootInodeNo ∧ e.inode = rootInodeNo := by
    intro d e hd he
    obtain rfl := fresh_isDir disk hd
    rw [fresh_dirEntries] at he
    simp only [List.mem_cons, List.not_mem_nil, or_false] at he
    rcases he with rfl | rfl <;> exact ⟨rfl, rfl⟩
  refine ⟨?_, ?_, ?_⟩
  · intro d e hd he _
    obtain ⟨rfl, hn⟩ := hentry d e hd he
    exact hn
  · intro e he _
    exact (hentry _ e (fresh_tree disk).root he).2
  · intro d e q name hd he _ hlink
    obtain ⟨hq, hproper, -⟩ := link_mem hlink
    obtain ⟨-, hn⟩ := hentry d e hd he
    have hq2 : q = rootInodeNo := fresh_isDir disk hq
    rw [hn, hq2]

theorem Dots.write (env : Env) (h : Dots (view s)) (ht : Tree held (view s))
    (hp : AllocatedDir s r.parent) (hname : r.name.Proper) :
    Dots (view (Ext2.write env s r).2) := by
  have hslot : IsSlot r.parent := isSlot_of_isDir hp.2
  rcases ht.settled.write_dir env hp with hres | ⟨-, n, P, x, v₃, hst, hadd⟩
  · rwa [hres]
  · obtain ⟨hdots₃, hup⟩ := h.stored ht hst hslot
    have hd : (v₃.inode r.parent).isDir = true := by
      rw [hst.inode_ne (hst.parent_ne hp)]
      exact hp.2
    have hn : IsSlot n := hst.slot
    exact hdots₃.added (ht.settled.stored hst hslot) hadd hd hn.ne_zero hn.lt_word hname hup

theorem Dots.delete (env : Env) (h : Dots (view s)) (ht : Tree held (view s))
    (hp : AllocatedDir s r.parent) (hname : r.name.Proper) :
    Dots (view (Ext2.delete env s r).2) := by
  have hslot : IsSlot r.parent := isSlot_of_isDir hp.2
  rcases delete_cases env ht.settled.sound (fun n hn => hn.inTable) (Or.inr hslot.inTable) with
    ⟨code, -, hres⟩ | ⟨e, b, buf, hrem, -, hview⟩
  · rwa [hres]
  · rw [hview]
    exact (h.unlinked ht hrem).dealloc (ht.unlinked hrem hname) (Or.inr rfl)

/-- A tree whose dot entries are right. -/
def DottedTree (v : Volume) : Prop := ∃ held, Tree held v ∧ Dots v

theorem DottedTree.call (env : Env) (h : DottedTree (view s)) (hc : ProperCall s c) :
    DottedTree (view (c.run env s).2) := by
  obtain ⟨held, ht, hdots⟩ := h
  obtain ⟨held', ht'⟩ : ∃ held', Tree held' (view (c.run env s).2) := ht.call hc.treeCall
  refine ⟨held', ht', ?_⟩
  cases c with
  | write r => exact hdots.write env ht hc.1 hc.2
  | delete r => exact hdots.delete env ht hc.1 hc.2

theorem reachable_dottedTree (h : Reachable ProperCall s) : DottedTree (view s) := by
  refine h.induct DottedTree (fun disk => ⟨∅, fresh_tree disk, fresh_dots disk⟩) ?_
  intro env s c htree hok
  exact htree.call env hok

/-! ## The tree on a cut disk -/

/-- What the disk promises of the inodes that a path of names leads to. -/
structure TreeOnDisk (s : Fs) : Prop where
  tiled : ∀ p, FromRoot s p → (inodeAt s p).isDir = true → (view s).DirShape p
  live : ∀ p, FromRoot s p → (inodeAt s p).isDir = true → ∀ e ∈ (view s).dirEntries p,
    inodeUsed s e.inode = true
  used : ∀ p, FromRoot s p → ∀ b ∈ blockRefs s p, blockUsed s b = true
  nodup : ∀ p, FromRoot s p → (blockRefs s p).Nodup
  once : ∀ p q, FromRoot s p → FromRoot s q → ∀ b ∈ blockRefs s p, b ∈ blockRefs s q → p = q

theorem root_or_linked (hp : FromRoot s p) :
    p = rootInodeNo ∨ ∃ q e, FromRoot s q ∧ Names s q e ∧ e.inode = p := by
  cases hp with
  | refl => exact Or.inl rfl
  | tail hq hlast =>
      obtain ⟨e, hn, rfl⟩ := hlast
      exact Or.inr ⟨_, e, hq, hn, rfl⟩

theorem Tree.used_of_path (h : Tree held (view s)) (hp : FromRoot s p) : inodeUsed s p = true := by
  rcases root_or_linked hp with rfl | ⟨q, e, -, hn, rfl⟩
  · exact h.root_used
  · exact h.intact.allocated q e hn

/-- An inode that is not in use, or held, is not below the root. -/
theorem Tree.not_fromRoot (h : Tree held (view s)) (ht : inodeUsed s t = false ∨ t ∈ held) :
    ¬ FromRoot s t := by
  intro hp
  rcases ht with hu | hheld
  · rw [h.used_of_path hp] at hu
    cases hu
  · rcases root_or_linked hp with rfl | ⟨q, e, -, hn, rfl⟩
    · exact absurd (h.links.held_taken hheld).1 (by decide)
    · exact h.links.loose (h.link_names hn) hheld

/-- The dot entries below the root lead to no other inodes. -/
theorem Dots.fromRoot (h : Dots (view s)) (ht : Tree held (view s)) (hp : FromRoot s p)
    (hd : (inodeAt s p).isDir = true) (he : e ∈ (view s).dirEntries p) : FromRoot s e.inode := by
  by_cases hn : e.name.Proper
  · exact hp.tail ⟨e, ⟨ht.allocated_of_path hp hd, he, hn⟩, rfl⟩
  · rcases EntryName.not_proper.mp hn with hname | hname
    · rwa [h.self p e hd he hname]
    · rcases root_or_linked hp with rfl | ⟨q, e', hq, hn', rfl⟩
      · rwa [h.root e he hname]
      · rwa [h.up _ e q _ hd he hname (ht.link_names hn')]

theorem Untouched.blockRefs_eq (h : Untouched (view s) (view s') n)
    (h12 : (inodeAt s n).block 12 = 0 ∨
      rootDirBlockLba ≤ (inodeAt s n).block 12 ∧ (inodeAt s n).block 12 < blocksPerGroup) :
    blockRefs s' n = blockRefs s n := by
  have hinode : inodeAt s' n = inodeAt s n := h.inode
  unfold blockRefs
  rw [hinode]
  by_cases h0 : (inodeAt s n).block 12 = 0
  · simp only [h0, if_true]
  · obtain ⟨hge, hlt⟩ := h12.resolve_left h0
    have hptr : (view s).ptr n 12 = (inodeAt s n).block 12 := EXT2Inode.ptr_direct (by decide)
    have hdata := h.data 12 (hptr ▸ h0)
    rw [hptr, ← readBlocks_data s hge (lt_trans hlt (by decide)),
      ← readBlocks_data s' hge (lt_trans hlt (by decide))] at hdata
    dsimp only
    rw [hdata]

namespace Keeps

variable {d : ℕ → Block} {B : Set ℕ}

/-- An inode that the cut call is not working on. -/
theorem untouched (h : Keeps s.disk t B d) (hs : Settled (view s)) (hn : n ≠ t)
    (hB : ∀ b ∈ (view s).refs n, b ∉ B) : Untouched (view s) (view (poweredOff d)) n where
  inode := (h.slots n hn).trans (inodeAt_poweredOff s n)
  data := fun j hj => by
    obtain ⟨hge, hlt, hu⟩ := hs.sound.ptr_taken hj
    rw [view_data _ hge, view_data _ hge]
    exact h.data _ hge (hB _ ⟨j, rfl, hj⟩) ((blockUsed_poweredOff s _).trans hu)

/-- A cut disk keeps the tree when the inode `t` is not in it. -/
theorem treeOnDisk (h : Keeps s.disk t B d) (ht : Tree held (view s)) (hdots : Dots (view s))
    (hroot : ¬ FromRoot s t) (hB : ∀ n, n ≠ t → ∀ b ∈ (view s).refs n, b ∉ B) :
    TreeOnDisk (poweredOff d) := by
  have hsame : ∀ n, FromRoot s n → Untouched (view s) (view (poweredOff d)) n := by
    intro n hn
    have hne : n ≠ t := fun he => hroot (he ▸ hn)
    exact h.untouched ht.settled hne (hB n hne)
  have hdir : ∀ n, FromRoot s n → (inodeAt (poweredOff d) n).isDir = (inodeAt s n).isDir :=
    fun n hn => congrArg EXT2Inode.isDir (hsame n hn).inode
  -- the paths on the cut disk are paths of the tree
  have hpath : ∀ n, FromRoot (poweredOff d) n → FromRoot s n := by
    intro n hn
    induction hn with
    | refl => exact .refl
    | tail _ hlast ih =>
        obtain ⟨e, ⟨⟨-, hd⟩, he, hn⟩, rfl⟩ := hlast
        rw [hdir _ ih] at hd
        rw [(hsame _ ih).dirEntries_eq] at he
        exact ih.tail ⟨e, ⟨ht.allocated_of_path ih hd, he, hn⟩, rfl⟩
  have hrefs : ∀ n, FromRoot s n → blockRefs (poweredOff d) n = blockRefs s n := by
    intro n hn
    apply (hsame n hn).blockRefs_eq
    by_cases h0 : (inodeAt s n).block 12 = 0
    · exact Or.inl h0
    · have hptr : (view s).ptr n 12 = (inodeAt s n).block 12 := EXT2Inode.ptr_direct (by decide)
      obtain ⟨hge, hlt, -⟩ := ht.settled.sound.ptr_taken (hptr ▸ h0 : (view s).ptr n 12 ≠ 0)
      rw [hptr] at hge hlt
      exact Or.inr ⟨hge, hlt⟩
  refine ⟨?_, ?_, ?_, ?_, ?_⟩
  · intro n hn hd
    have hn' := hpath n hn
    rw [hdir n hn'] at hd
    have hshape := ht.settled.sound.shape hd
    refine ⟨fun b hb => ?_, fun b hb => ?_⟩
    · rw [(hsame n hn').dirBlocks_eq] at hb
      exact hshape.bounds b hb
    · rw [(hsame n hn').dirBlocks_eq] at hb
      rw [(hsame n hn').data_dirBlocks hb]
      exact hshape.tiled b hb
  · intro n hn hd e he
    have hn' := hpath n hn
    rw [hdir n hn'] at hd
    rw [(hsame n hn').dirEntries_eq] at he
    have hlead := hdots.fromRoot ht hn' hd he
    have hne : e.inode ≠ t := fun het => hroot (het ▸ hlead)
    exact h.inodes _ hne ((inodeUsed_poweredOff s _).trans (ht.used_of_path hlead))
  · intro n hn b hb
    have hn' := hpath n hn
    rw [hrefs n hn'] at hb
    obtain ⟨j, rfl, h0⟩ := (mem_blockRefs ht.settled).mp hb
    have hne : n ≠ t := fun he => hroot (he ▸ hn')
    exact h.blocks _ (hB n hne _ ⟨j, rfl, h0⟩)
      ((blockUsed_poweredOff s _).trans (ht.settled.sound.ptr_taken h0).2.2)
  · intro n hn
    rw [hrefs n (hpath n hn)]
    exact nodup_blockRefs ht.settled n
  · intro n m hn hm b hb hb'
    rw [hrefs n (hpath n hn)] at hb
    rw [hrefs m (hpath m hm)] at hb'
    obtain ⟨j, hj, h0⟩ := (mem_blockRefs ht.settled).mp hb
    obtain ⟨k, hk, -⟩ := (mem_blockRefs ht.settled).mp hb'
    exact (ht.settled.sound.ptr_inj (hj ▸ h0) (hj.trans hk.symm)).1

end Keeps

theorem Tree.treeOnDisk (h : Tree held (view s)) (hdots : Dots (view s)) :
    TreeOnDisk (poweredOff s.disk) := by
  apply (Keeps.refl s.disk 0 ∅).treeOnDisk h hdots (h.not_fromRoot (Or.inl rfl))
  exact fun _ _ b _ => Set.notMem_empty b

/-! ## Every cut of a call -/

/-- The call is a `write` that gives the parent directory another block. -/
def GrowsParent (env : Env) (s : Fs) : Call → Prop
  | .write r => Accepted env s r ∧ ¬ (view s).EntryFits r.parent r.name
  | .delete _ => False

theorem Tree.write_cuts (env : Env) (ht : Tree held (view s)) (hdots : Dots (view s))
    (hmagic : s.superblock.s_magic = ext2SuperMagic) (hc : ProperCall s (.write r))
    (hgrow : ¬ GrowsParent env s (.write r)) :
    Emits (fun d => TreeOnDisk (poweredOff d)) s (Ext2.write env s r).2 := by
  have hp : AllocatedDir s r.parent := hc.1
  have hslot : IsSlot r.parent := isSlot_of_isDir hp.2
  obtain ⟨held', ht', hdots'⟩ := DottedTree.call env ⟨held, ht, hdots⟩ hc
  have hlast : TreeOnDisk (poweredOff (Ext2.write env s r).2.disk) := ht'.treeOnDisk hdots'
  have hzero := ht.settled.write_zero_iff env hp
  rcases ht.settled.write_writes env hmagic hp with
    ⟨-, hres⟩ | ⟨-, n, P, x, s₃, hst, hstore, -, hentry⟩
  · rw [hres]
    exact .refl (ht.treeOnDisk hdots)
  · -- the new inode is in no directory until its entry is written
    have hstored : Emits (fun d => TreeOnDisk (poweredOff d)) s s₃ := by
      apply hstore.mono
      intro d hk
      exact hk.treeOnDisk ht hdots (ht.not_fromRoot (Or.inl hst.unused))
        fun _ _ b _ => Set.notMem_empty b
    have hparent := hst.untouched ht.settled.sound (hst.parent_ne hp)
    have hd : ((view s₃).inode r.parent).isDir = true := by
      rw [hparent.inode]
      exact hp.2
    have hbounds := ((ht.settled.stored hst hslot).sound.shape hd).bounds
    generalize Ext2.write env s r = res at hentry hlast hzero ⊢
    apply hstored.trans
    cases hentry with
    | split b buf hb _ =>
        have hlt := (hbounds b hb).2
        apply emits_writeBlocks hstored.last (by omega)
        rwa [disk_writeBlocks_update _ _ (by omega)] at hlast
    | full => exact .refl hstored.last
    | grow s' hfit _ =>
        rw [hparent.entryFits_iff] at hfit
        exact absurd ⟨hzero.mp rfl, hfit⟩ hgrow

theorem Tree.delete_cuts (env : Env) (ht : Tree held (view s)) (hdots : Dots (view s))
    (hmagic : s.superblock.s_magic = ext2SuperMagic) (hc : ProperCall s (.delete r)) :
    Emits (fun d => TreeOnDisk (poweredOff d)) s (Ext2.delete env s r).2 := by
  have hp : AllocatedDir s r.parent := hc.1
  rcases ht.settled.delete_writes env hmagic hp with
    ⟨code, -, hres⟩ | ⟨-, e, b, buf, s₁, hrem, hremove, hview, -, hdealloc, -⟩
  · rw [hres]
    exact .refl (ht.treeOnDisk hdots)
  · -- once the entry is gone, the inode is in no directory
    have ht₁ : Tree (held ∪ {e.inode}) (view s₁) := hview ▸ ht.unlinked hrem hc.2
    have hdots₁ : Dots (view s₁) := hview ▸ hdots.unlinked ht hrem
    have hunlink : Emits (fun d => TreeOnDisk (poweredOff d)) s s₁ := by
      apply hremove.mono
      rintro d (rfl | rfl)
      · exact ht.treeOnDisk hdots
      · exact ht₁.treeOnDisk hdots₁
    apply hunlink.trans
    apply hdealloc.mono
    intro d hk
    apply hk.treeOnDisk ht₁ hdots₁ (ht₁.not_fromRoot (Or.inr (Or.inr rfl)))
    rintro n hn b ⟨j, rfl, h0⟩ ⟨k, hk, -⟩
    exact hn (ht₁.settled.sound.ptr_inj h0 hk.symm).1

theorem call_cuts (h : Reachable ProperCall s) (hc : ProperCall s c) (env : Env)
    (hgrow : ¬ GrowsParent env s c) :
    Emits (fun d => TreeOnDisk (poweredOff d)) s (c.run env s).2 := by
  obtain ⟨held, ht, hdots⟩ := reachable_dottedTree h
  have hmagic := (reachable_mounted (h.mono fun _ _ hc => hc.onDirectory)).magic
  cases c with
  | write r => exact ht.write_cuts env hdots hmagic hc hgrow
  | delete r => exact ht.delete_cuts env hdots hmagic hc

/-- **A power cut leaves a safe tree** at every point of every call, after any
calls, unless the call gives its parent directory another block. -/
theorem crash_consistent (h : Reachable ProperCall s) (hc : ProperCall s c) (env : Env)
    (hgrow : ¬ GrowsParent env s c) :
    ∃ ws, (c.run env s).2.log = ws ++ s.log ∧ (c.run env s).2.disk = replay s.disk ws ∧
      ∀ vs, vs <:+ ws → TreeOnDisk (poweredOff (replay s.disk vs)) :=
  (call_cuts h hc env hgrow).journal

theorem crash_consistent_small_file :
    ∃ ws, (smallFile.run .zero freshFs).2.log = ws ++ freshFs.log ∧
      (smallFile.run .zero freshFs).2.disk = replay freshFs.disk ws ∧
      ∀ vs, vs <:+ ws → TreeOnDisk (poweredOff (replay freshFs.disk vs)) := by
  have hfits : (view freshFs).EntryFits 2 (.letter 0x61) := by
    refine ⟨21, by decide +kernel, ?_⟩
    unfold HasRoom
    decide +kernel
  have hproper : ProperCall freshFs smallFile := by decide +kernel
  exact crash_consistent (Reachable.fresh ProperCall) hproper .zero fun hgrow => hgrow.2 hfits

/-- An empty file with a name of 255 bytes in the root directory. -/
def longFile (k : ℕ) : Call := .write (.file 2 (.long k) [])

/-- The second such file does not fit into the block of the root directory. Cut
before its last write, the root directory has a second block of zeros. -/
theorem second_block_cut :
    Reachable ProperCall (runCalls [longFile 0] freshFs) ∧
      ProperCall (runCalls [longFile 0] freshFs) (longFile 1) ∧
      ¬ ∃ ws, ((longFile 1).run .zero (runCalls [longFile 0] freshFs)).2.log =
          ws ++ (runCalls [longFile 0] freshFs).log ∧
        ((longFile 1).run .zero (runCalls [longFile 0] freshFs)).2.disk =
          replay (runCalls [longFile 0] freshFs).disk ws ∧
        ∀ vs, vs <:+ ws →
          TreeOnDisk (poweredOff (replay (runCalls [longFile 0] freshFs).disk vs)) := by
  have hrun : allProper [longFile 0] freshFs = true ∧
      ProperCall (runCalls [longFile 0] freshFs) (longFile 1) ∧
      ∃ ws, ((longFile 1).run .zero (runCalls [longFile 0] freshFs)).2.log =
          ws ++ (runCalls [longFile 0] freshFs).log ∧
        (inodeAt (poweredOff (replay (runCalls [longFile 0] freshFs).disk ws.tail)) 2).isDir =
          true ∧
        22 ∈ (view (poweredOff (replay (runCalls [longFile 0] freshFs).disk ws.tail))).dirBlocks
          2 ∧
        (view (poweredOff (replay (runCalls [longFile 0] freshFs).disk ws.tail))).data 22 = 0 := by
    refine ⟨by decide +kernel, by decide +kernel,
      ((longFile 1).run .zero (runCalls [longFile 0] freshFs)).2.log.take 9, ?_⟩
    decide +kernel
  obtain ⟨hproper, hcall, ws, hlog, hd, hmem, hzero⟩ := hrun
  refine ⟨(Reachable.fresh ProperCall).runCalls hproper, hcall, ?_⟩
  rintro ⟨ws', hlog', -, hcut⟩
  obtain rfl : ws' = ws := List.append_cancel_right (hlog'.symm.trans hlog)
  have htiles := ((hcut _ (List.tail_suffix ws')).tiled 2 .refl hd).tiled 22 hmem
  have hempty : blockRecs 0 = [] := List.length_eq_zero_iff.mp (by decide +kernel)
  rw [hzero, hempty] at htiles
  exact absurd htiles (show (0 : ℕ) ≠ 512 by decide)

end RendangOS.Ext2
