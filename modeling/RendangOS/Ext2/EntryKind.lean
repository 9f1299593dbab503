import RendangOS.Ext2.Crash

/-!
# Entries and their inodes

An entry says in `file_type` what the inode it names says in `i_mode`, as long as
no call goes through `"."` or `".."`: an inode has one such entry, and both are
written by the same call.
-/

namespace RendangOS.Ext2

open Image RecordChain Assoc

variable {env : Env} {s : Fs} {v v' : Volume} {held : Set ℕ} {n q : ℕ} {r : Request}
  {e : DirEntry} {c : Call}

/-- The entries but `"."` and `".."` tell directories from files. -/
def EntryKinds (v : Volume) : Prop :=
  ∀ d e, (v.inode d).isDir = true → e ∈ v.dirEntries d → e.name.Proper →
    (e.fileType = ext2FtDir ↔ (v.inode e.inode).isDir = true)

theorem Request.fileType_iff (r : Request) :
    r.fileType = ext2FtDir ↔ r.is_directory = true := by
  unfold Request.fileType
  cases r.is_directory <;> decide

namespace EntryKinds

/-- No entry names a new inode. -/
theorem stored {P : List ℕ} {x : EXT2Inode} (h : EntryKinds v) (ht : Tree held v)
    (hst : Stored v r n P x v') (hp : IsSlot r.parent) : EntryKinds v' := by
  have hp0 : r.parent ≠ 0 := hp.ne_zero
  intro d e hd he hproper
  by_cases hdn : d = n
  · subst hdn
    rw [hst.inode_self, hst.isDir] at hd
    rw [hst.dirEntries_eq hd hp0] at he
    split at he
    · cases he
    · simp only [List.mem_cons, List.not_mem_nil, or_false] at he
      rcases he with rfl | rfl
      · exact absurd rfl hproper.1
      · exact absurd rfl hproper.2
  · have hun := hst.untouched ht.settled.sound hdn
    rw [hun.inode] at hd
    rw [hun.dirEntries_eq] at he
    have hen : e.inode ≠ n := by
      intro heq
      have hu := (ht.links.own_taken (ht.settled.link_entry hd he hproper)).2.2
      rw [heq, hst.unused] at hu
      cases hu
    rw [hst.inode_ne hen]
    exact h d e hd he hproper

theorem added {code : ℤ} (h : EntryKinds v) (hs : Settled v) (ha : Added v q e code v')
    (hd : (v.inode q).isDir = true) (h0 : e.inode ≠ 0) (hlt : e.inode < 2 ^ 32)
    (hkind : e.fileType = ext2FtDir ↔ (v.inode e.inode).isDir = true) : EntryKinds v' := by
  rcases ha.code with rfl | rfl
  · have hperm := ha.dirEntries_perm hs.sound hd h0 hlt
    intro d c hdir hc hproper
    rw [ha.isDir_eq] at hdir ⊢
    by_cases hdq : d = q
    · subst hdq
      rcases List.mem_cons.mp (hperm.mem_iff.mp hc) with rfl | hold
      · exact hkind
      · exact h d c hdir hold hproper
    · rw [(ha.untouched hs.sound hdq).dirEntries_eq] at hc
      exact h d c hdir hc hproper
  · cases ha
    exact h

theorem unlinked {b : ℕ} {buf : Block} (h : EntryKinds (view s)) (ht : Tree held (view s))
    (hr : Removed env s r e b buf) : EntryKinds ((view s).setData b buf) := by
  have hperm := Volume.dirEntries_setData_perm' (ht.settled.sound.dirBlocks_nodup _) hr.block
    hr.perm
  intro d c hd hc hproper
  refine h d c hd ?_ hproper
  by_cases hdq : d = slotOf r.parent
  · subst hdq
    exact hperm.mem_iff.mpr (List.mem_cons_of_mem _ hc)
  · rwa [(untouched_setData ht.settled.sound hr.block hdq).dirEntries_eq] at hc

/-- No entry names an inode that is held. -/
theorem dealloc (h : EntryKinds v) (ht : Tree held v) (hn : n ∈ held) :
    EntryKinds (v.dealloc n) := by
  obtain ⟨hgt, hle, -⟩ := ht.links.held_taken hn
  have hslot : IsSlot n := ⟨by omega, hle⟩
  intro d c hd hc hproper
  have hdn : d ≠ slotOf n := by
    rintro rfl
    rw [Volume.inode_dealloc_self, Sound.zero_isDir] at hd
    cases hd
  have hun := v.untouched_dealloc hdn
  rw [hun.inode] at hd
  rw [hun.dirEntries_eq] at hc
  have hcn : c.inode ≠ slotOf n := by
    rw [hslot.slotOf]
    rintro rfl
    exact ht.links.loose (ht.settled.link_entry hd hc hproper) hn
  rw [(v.untouched_dealloc hcn).inode]
  exact h d c hd hc hproper

theorem write (env : Env) (h : EntryKinds (view s)) (ht : Tree held (view s))
    (hp : AllocatedDir s r.parent) : EntryKinds (view (Ext2.write env s r).2) := by
  have hslot : IsSlot r.parent := isSlot_of_isDir hp.2
  rcases ht.settled.write_dir env hp with hres | ⟨-, n, P, x, v₃, hst, hadd⟩
  · rwa [hres]
  · have hd : (v₃.inode r.parent).isDir = true := by
      rw [hst.inode_ne (hst.parent_ne hp)]
      exact hp.2
    have hn : IsSlot n := hst.slot
    have hkind : (r.entry n).fileType = ext2FtDir ↔ (v₃.inode n).isDir = true := by
      rw [hst.inode_self, hst.isDir]
      exact r.fileType_iff
    exact (h.stored ht hst hslot).added (ht.settled.stored hst hslot) hadd hd
      hn.ne_zero hn.lt_word hkind

theorem delete (env : Env) (h : EntryKinds (view s)) (ht : Tree held (view s))
    (hp : AllocatedDir s r.parent) (hname : r.name.Proper) :
    EntryKinds (view (Ext2.delete env s r).2) := by
  have hslot : IsSlot r.parent := isSlot_of_isDir hp.2
  rcases delete_cases env ht.settled.sound (fun n hn => hn.inTable) (Or.inr hslot.inTable) with
    ⟨code, -, hres⟩ | ⟨e, b, buf, hrem, -, hview⟩
  · rwa [hres]
  · rw [hview]
    exact (h.unlinked ht hrem).dealloc (ht.unlinked hrem hname) (Or.inr rfl)

end EntryKinds

theorem fresh_entryKinds (disk : ℕ → Block) : EntryKinds (freshVolume disk) := by
  intro d e hd he hproper
  obtain rfl := fresh_isDir disk hd
  rw [fresh_dirEntries] at he
  simp only [List.mem_cons, List.not_mem_nil, or_false] at he
  rcases he with rfl | rfl
  · exact absurd rfl hproper.1
  · exact absurd rfl hproper.2

/-- The tree of a run that leaves `"."` and `".."` alone. -/
theorem reachable_kinds (h : Reachable ProperCall s) :
    (∃ held, Tree held (view s) ∧ EntryKinds (view s)) := by
  refine h.induct (fun v => ∃ held, Tree held v ∧ EntryKinds v)
    (fun disk => ⟨∅, fresh_tree disk, fresh_entryKinds disk⟩) ?_
  rintro env s c ⟨held, ht, hkinds⟩ hok
  obtain ⟨held', ht'⟩ : ∃ held', Tree held' (view (c.run env s).2) := ht.call hok.treeCall
  refine ⟨held', ht', ?_⟩
  cases c with
  | write r => exact hkinds.write env ht hok.1
  | delete r => exact hkinds.delete env ht hok.1 hok.2

/-! ## The type of `"."` and `".."` -/

/-- The dot entries are entries of directories. -/
def DotKinds (v : Volume) : Prop :=
  ∀ d e, (v.inode d).isDir = true → e ∈ v.dirEntries d → ¬ e.name.Proper →
    e.fileType = ext2FtDir

/-- A deletion leaves directories and entries that were there before. -/
theorem deleted_sub {b t d : ℕ} {buf : Block} (ht : Tree held (view s))
    (hr : Removed env s r e b buf)
    (hd : ((((view s).setData b buf).dealloc t).inode d).isDir = true) :
    ((view s).inode d).isDir = true ∧
      ∀ c ∈ (((view s).setData b buf).dealloc t).dirEntries d, c ∈ (view s).dirEntries d := by
  have hperm := Volume.dirEntries_setData_perm' (ht.settled.sound.dirBlocks_nodup _) hr.block
    hr.perm
  have hdt : d ≠ slotOf t := by
    rintro rfl
    rw [Volume.inode_dealloc_self, Sound.zero_isDir] at hd
    cases hd
  have hun := ((view s).setData b buf).untouched_dealloc hdt
  rw [hun.inode] at hd
  refine ⟨hd, ?_⟩
  intro c hc
  rw [hun.dirEntries_eq] at hc
  by_cases hdq : d = slotOf r.parent
  · subst hdq
    exact hperm.mem_iff.mpr (List.mem_cons_of_mem _ hc)
  · rwa [(untouched_setData ht.settled.sound hr.block hdq).dirEntries_eq] at hc

namespace DotKinds

theorem stored {P : List ℕ} {x : EXT2Inode} (h : DotKinds v) (ht : Tree held v)
    (hst : Stored v r n P x v') (hp : IsSlot r.parent) : DotKinds v' := by
  have hp0 : r.parent ≠ 0 := hp.ne_zero
  intro d e hd he hdots
  by_cases hdn : d = n
  · subst hdn
    rw [hst.inode_self, hst.isDir] at hd
    rw [hst.dirEntries_eq hd hp0] at he
    split at he
    · cases he
    · simp only [List.mem_cons, List.not_mem_nil, or_false] at he
      rcases he with rfl | rfl <;> rfl
  · have hun := hst.untouched ht.settled.sound hdn
    rw [hun.inode] at hd
    rw [hun.dirEntries_eq] at he
    exact h d e hd he hdots

theorem added {code : ℤ} (h : DotKinds v) (hs : Settled v) (ha : Added v q e code v')
    (hd : (v.inode q).isDir = true) (h0 : e.inode ≠ 0) (hlt : e.inode < 2 ^ 32)
    (hproper : e.name.Proper) : DotKinds v' := by
  rcases ha.code with rfl | rfl
  · have hperm := ha.dirEntries_perm hs.sound hd h0 hlt
    intro d c hdir hc hdots
    rw [ha.isDir_eq] at hdir
    by_cases hdq : d = q
    · subst hdq
      rcases List.mem_cons.mp (hperm.mem_iff.mp hc) with rfl | hold
      · exact absurd hproper hdots
      · exact h d c hdir hold hdots
    · rw [(ha.untouched hs.sound hdq).dirEntries_eq] at hc
      exact h d c hdir hc hdots
  · cases ha
    exact h

theorem write (env : Env) (h : DotKinds (view s)) (ht : Tree held (view s))
    (hp : AllocatedDir s r.parent) (hname : r.name.Proper) :
    DotKinds (view (Ext2.write env s r).2) := by
  have hslot : IsSlot r.parent := isSlot_of_isDir hp.2
  rcases ht.settled.write_dir env hp with hres | ⟨-, n, P, x, v₃, hst, hadd⟩
  · rwa [hres]
  · have hd : (v₃.inode r.parent).isDir = true := by
      rw [hst.inode_ne (hst.parent_ne hp)]
      exact hp.2
    have hn : IsSlot n := hst.slot
    exact (h.stored ht hst hslot).added (ht.settled.stored hst hslot) hadd hd
      hn.ne_zero hn.lt_word hname

theorem delete (env : Env) (h : DotKinds (view s)) (ht : Tree held (view s))
    (hp : AllocatedDir s r.parent) : DotKinds (view (Ext2.delete env s r).2) := by
  have hslot : IsSlot r.parent := isSlot_of_isDir hp.2
  rcases delete_cases env ht.settled.sound (fun n hn => hn.inTable) (Or.inr hslot.inTable) with
    ⟨code, -, hres⟩ | ⟨e, b, buf, hrem, -, hview⟩
  · rwa [hres]
  · rw [hview]
    intro d c hd hc hdots
    obtain ⟨hdir, hsub⟩ := deleted_sub ht hrem hd
    exact h d c hdir (hsub c hc) hdots

end DotKinds

theorem fresh_dotKinds (disk : ℕ → Block) : DotKinds (freshVolume disk) := by
  intro d e hd he _
  obtain rfl := fresh_isDir disk hd
  rw [fresh_dirEntries] at he
  simp only [List.mem_cons, List.not_mem_nil, or_false] at he
  rcases he with rfl | rfl <;> rfl

theorem reachable_dotKinds (h : Reachable ProperCall s) : DotKinds (view s) := by
  have hinv : ∃ held, Tree held (view s) ∧ DotKinds (view s) := by
    refine h.induct (fun v => ∃ held, Tree held v ∧ DotKinds v)
      (fun disk => ⟨∅, fresh_tree disk, fresh_dotKinds disk⟩) ?_
    rintro env s c ⟨held, ht, hkinds⟩ hok
    obtain ⟨held', ht'⟩ : ∃ held', Tree held' (view (c.run env s).2) := ht.call hok.treeCall
    refine ⟨held', ht', ?_⟩
    cases c with
    | write r => exact hkinds.write env ht hok.1 hok.2
    | delete r => exact hkinds.delete env ht hok.1
  obtain ⟨held, -, hkinds⟩ := hinv
  exact hkinds

/-- The type of an entry is the kind of its inode; nothing is said of `".."`. -/
theorem reachable_fileType {d : ℕ} (h : Reachable ProperCall s)
    (hd : ((view s).inode d).isDir = true) (he : e ∈ (view s).dirEntries d)
    (hname : e.name ≠ .dotdot) :
    e.fileType = ext2FtDir ↔ ((view s).inode e.inode).isDir = true := by
  obtain ⟨held, ht, hkinds⟩ := reachable_kinds h
  by_cases hdot : e.name = .dot
  · obtain ⟨held', ht', hdots⟩ := reachable_dottedTree h
    rw [hdots.self d e hd he hdot]
    exact iff_of_true (reachable_dotKinds h d e hd he fun hproper => hproper.1 hdot) hd
  · exact hkinds d e hd he ⟨hdot, hname⟩

/-! ## Entries that name directories -/

/-- An entry with the type of a directory names one, `".."` included. A removal may
leave a `".."` behind, writes keep this. -/
def DirTargets (v : Volume) : Prop :=
  ∀ d e, (v.inode d).isDir = true → e ∈ v.dirEntries d → e.fileType = ext2FtDir →
    (v.inode e.inode).isDir = true

namespace DirTargets

theorem stored {P : List ℕ} {x : EXT2Inode} (h : DirTargets v) (hs : Settled v)
    (hst : Stored v r n P x v') (hp : IsSlot r.parent) (hd : (v.inode r.parent).isDir = true)
    (hpn : r.parent ≠ n) : DirTargets v' := by
  have hp0 : r.parent ≠ 0 := hp.ne_zero
  intro d e hdir he htype
  by_cases hdn : d = n
  · subst hdn
    have hself := hdir
    rw [hst.inode_self, hst.isDir] at hdir
    rw [hst.dirEntries_eq hdir hp0] at he
    split at he
    · cases he
    · simp only [List.mem_cons, List.not_mem_nil, or_false] at he
      rcases he with rfl | rfl
      · exact hself
      · change (v'.inode r.parent).isDir = true
        rw [hst.inode_ne hpn]
        exact hd
  · have hun := hst.untouched hs.sound hdn
    rw [hun.inode] at hdir
    rw [hun.dirEntries_eq] at he
    have htarget := h d e hdir he htype
    have hen : e.inode ≠ n := by
      rintro rfl
      rw [hs.slot_zero hst, Sound.zero_isDir] at htarget
      cases htarget
    rw [hst.inode_ne hen]
    exact htarget

theorem added {code : ℤ} (h : DirTargets v) (hs : Settled v) (ha : Added v q e code v')
    (hd : (v.inode q).isDir = true) (h0 : e.inode ≠ 0) (hlt : e.inode < 2 ^ 32)
    (hkind : e.fileType = ext2FtDir → (v.inode e.inode).isDir = true) : DirTargets v' := by
  rcases ha.code with rfl | rfl
  · have hperm := ha.dirEntries_perm hs.sound hd h0 hlt
    intro d c hdir hc htype
    rw [ha.isDir_eq] at hdir ⊢
    by_cases hdq : d = q
    · subst hdq
      rcases List.mem_cons.mp (hperm.mem_iff.mp hc) with rfl | hold
      · exact hkind htype
      · exact h d c hdir hold htype
    · rw [(ha.untouched hs.sound hdq).dirEntries_eq] at hc
      exact h d c hdir hc htype
  · cases ha
    exact h

theorem write (env : Env) (h : DirTargets (view s)) (hs : Settled (view s))
    (hp : AllocatedDir s r.parent) : DirTargets (view (Ext2.write env s r).2) := by
  have hslot : IsSlot r.parent := isSlot_of_isDir hp.2
  rcases hs.write_dir env hp with hres | ⟨-, n, P, x, v₃, hst, hadd⟩
  · rwa [hres]
  · have hpn := hst.parent_ne hp
    have hd : (v₃.inode r.parent).isDir = true := by
      rw [hst.inode_ne hpn]
      exact hp.2
    have hn : IsSlot n := hst.slot
    have hkind : (r.entry n).fileType = ext2FtDir → (v₃.inode n).isDir = true := by
      rw [hst.inode_self, hst.isDir]
      exact r.fileType_iff.mp
    exact (h.stored hs hst hslot hp.2 hpn).added (hs.stored hst hslot) hadd hd
      hn.ne_zero hn.lt_word hkind

end DirTargets

theorem fresh_dirTargets (disk : ℕ → Block) : DirTargets (freshVolume disk) := by
  intro d e hd he _
  obtain rfl := fresh_isDir disk hd
  rw [fresh_dirEntries] at he
  simp only [List.mem_cons, List.not_mem_nil, or_false] at he
  rcases he with rfl | rfl <;> exact hd

end RendangOS.Ext2
