import RendangOS.Ext2.Invariant

/-!
# The directory tree

An inode is a resource as a block is: `allocate_node` takes it, an entry other
than `"."` and `".."` owns it, `deallocate_node` gives it back. So the tree is
a second ledger, whose places are the names of the directories. An inode is
held when a call has allocated it and could not enter it, or when its
directory has been deleted. The ledger breaks only where `delete` follows
`"."` or `".."`; without such a removal the tree stays intact, and the inode
counters agree with the inode bitmap.
-/

namespace RendangOS.Ext2

open Image RecordChain Assoc Bitmap

/-- A name other than `"."` and `".."`. -/
def EntryName.Proper (name : EntryName) : Prop := name ≠ .dot ∧ name ≠ .dotdot

instance : DecidablePred EntryName.Proper := fun name => by
  unfold EntryName.Proper
  infer_instance

theorem EntryName.long_proper (k : ℕ) : (EntryName.long k).Proper := by
  have hlen : (EntryName.long k).bytes.length = 255 := by
    rw [EntryName.long, List.length_cons, List.length_replicate]
  constructor <;> intro h <;> rw [h] at hlen <;> cases hlen

namespace Volume

/-- The inode that a directory enters under a name, `"."` and `".."` apart. -/
def link (v : Volume) (i : ℕ × EntryName) : Option ℕ :=
  if (v.inode i.1).isDir = true ∧ i.2.Proper then
    (lookup DirEntry.name (v.dirEntries i.1) i.2).map DirEntry.inode
  else none

/-- The inodes in use, those that `create_ext2` reserves apart. -/
def liveInodes (v : Volume) : Set ℕ :=
  {n | initialUsedInodes < n ∧ n ≤ inodesPerGroup ∧ v.inodeUsed n = true}

end Volume

structure Tree (held : Set ℕ) (v : Volume) : Prop where
  settled : Settled v
  root : (v.inode rootInodeNo).isDir = true
  reserved : ∀ n, 1 ≤ n → n ≤ initialUsedInodes → v.inodeUsed n = true
  links : Ledger v.link held v.liveInodes
  count : InodeCount v

variable {env : Env} {s : Fs} {v v' : Volume} {held : Set ℕ} {n m q : ℕ} {e : DirEntry}
  {name : EntryName}

theorem InodeCount.dealloc {t : ℕ} (h : InodeCount v) (ht : IsSlot t)
    (hu : v.inodeUsed t = true) : InodeCount (v.dealloc t) := by
  have hrel : InodeCount (v.releaseBlocks ((v.inode (slotOf t)).pointers v.data)) :=
    h.releaseBlocks
  have hused := v.inodeUsed_releaseBlocks ((v.inode (slotOf t)).pointers v.data)
  unfold Volume.dealloc
  generalize v.releaseBlocks ((v.inode (slotOf t)).pointers v.data) = w at hrel hused ⊢
  have hset : InodeCount (w.setInode (slotOf t) EXT2Inode.zero) := ⟨hrel.group, hrel.total⟩
  exact hset.freeInode ht.1 ht.2 ((congrFun hused t).trans hu)

/-! ## Names and links -/

theorem link_dir (hd : (v.inode q).isDir = true) (hn : name.Proper) :
    v.link (q, name) = (lookup DirEntry.name (v.dirEntries q) name).map DirEntry.inode :=
  if_pos ⟨hd, hn⟩

theorem link_not_dir (hd : (v.inode q).isDir = false) : v.link (q, name) = none := by
  apply if_neg
  rintro ⟨hd', -⟩
  rw [hd] at hd'
  cases hd'

theorem link_dots (hn : ¬ name.Proper) : v.link (q, name) = none :=
  if_neg fun h => hn h.2

theorem Untouched.link_eq (h : Untouched v v' m) (name : EntryName) :
    v'.link (m, name) = v.link (m, name) := by
  unfold Volume.link
  rw [h.inode, h.dirEntries_eq]

/-- An entry of a directory is a link. -/
theorem Settled.link_entry (h : Settled v) (hd : (v.inode q).isDir = true)
    (he : e ∈ v.dirEntries q) (hn : e.name.Proper) : v.link (q, e.name) = some e.inode := by
  rw [link_dir hd hn, lookup_of_mem (h.names q hd) he]
  rfl

namespace Tree

variable {r : Request}

/-- The root is an inode of its own, named by no entry. -/
theorem root_used (h : Tree held v) : v.inodeUsed rootInodeNo = true :=
  h.reserved 2 (by decide) (by decide)

/-! ## The steps of a call -/

/-- A new inode is held until it is entered. -/
theorem stored {P : List ℕ} {x : EXT2Inode} (h : Tree held v) (hst : Stored v r n P x v')
    (hp : IsSlot r.parent) : Tree (held ∪ {n}) v' := by
  have hgt : initialUsedInodes < n := by
    by_contra hle
    have hu := h.reserved n hst.slot.1 (not_lt.mp hle)
    rw [hst.unused] at hu
    cases hu
  have hused := hst.inodeUsed_eq
  have hlink : v'.link = v.link := by
    ext1 ⟨m, name⟩
    by_cases hm : m = n
    · subst hm
      have hold : (v.inode m).isDir = false := by
        rw [h.settled.slot_zero hst]
        exact Sound.zero_isDir
      rw [link_not_dir hold]
      by_cases hd : (v'.inode m).isDir = true
      · by_cases hn : name.Proper
        · -- a new directory has its dot entries at most
          rw [link_dir hd hn]
          rw [hst.inode_self, hst.isDir] at hd
          rw [hst.dirEntries_eq hd hp.ne_zero, Option.map_eq_none_iff, lookup_eq_none]
          split
          · simp
          · simp only [List.map_cons, List.map_nil, List.mem_cons, List.not_mem_nil, or_false]
            rintro (rfl | rfl)
            · exact hn.1 rfl
            · exact hn.2 rfl
        · exact link_dots hn
      · exact link_not_dir (by simpa using hd)
    · exact (hst.untouched h.settled.sound hm).link_eq name
  have hlive : v'.liveInodes = v.liveInodes ∪ {n} := by
    ext m
    simp only [Volume.liveInodes, hused, Set.mem_ofPred_eq, Set.mem_union, Set.mem_singleton_iff]
    by_cases hm : m = n
    · subst hm
      have hslot := hst.slot
      simp only [Function.update_self, and_true, or_true, iff_true]
      exact ⟨hgt, hslot.2⟩
    · simp only [Function.update_of_ne hm, hm, or_false]
  refine ⟨h.settled.stored hst hp, ?_, fun m h1 h11 => ?_, ?_, ?_⟩
  · have hne : rootInodeNo ≠ n := by
      rintro rfl
      exact absurd hgt (by decide)
    rw [hst.inode_ne hne]
    exact h.root
  · rw [hused, Function.update_of_ne (by omega)]
    exact h.reserved m h1 h11
  · rw [hlink, hlive]
    apply h.links.take
    rintro m rfl ⟨-, -, hm⟩
    rw [hst.unused] at hm
    cases hm
  · obtain ⟨v₂, hc, rfl⟩ := hst.content
    have hcount : InodeCount ((v.takeInode n).takeBlocks P) :=
      (h.count.takeInode hst.slot.1 hst.slot.2 hst.unused).takeBlocks
    rw [hc.volume]
    exact ⟨hcount.group, hcount.total⟩

/-- Entering a held inode under a new name of directory `q`. -/
theorem added {code : ℤ} (h : Tree held v) (ha : Added v q e code v')
    (hu : v.inodeUsed q = true) (hd : (v.inode q).isDir = true) (he : e.inode ∈ held)
    (hnew : e.name ∉ (v.dirEntries q).map DirEntry.name) : ∃ held', Tree held' v' := by
  obtain ⟨hgt, hle, -⟩ := h.links.held_taken he
  have hslot : IsSlot e.inode := ⟨by omega, hle⟩
  have h0 : e.inode ≠ 0 := by omega
  have hlt : e.inode < 2 ^ 32 := lt_of_le_of_lt hle (by decide)
  have hsettled := h.settled.added ha hu hd hslot hnew
  have hlive : v'.liveInodes = v.liveInodes := by
    unfold Volume.liveInodes
    rw [ha.inodeUsed_eq]
  have hother : ∀ m, m ≠ q → ∀ name, v'.link (m, name) = v.link (m, name) := by
    intro m hm name
    exact (ha.untouched h.settled.sound hm).link_eq name
  -- what remains is the ledger: the fields of the other parts do not change
  have hrest : ∀ held', Ledger v'.link held' v.liveInodes → Tree held' v' := by
    intro held' hlinks
    refine ⟨hsettled, (ha.isDir_eq 2).trans h.root, ?_, hlive ▸ hlinks, ?_⟩
    · rw [ha.inodeUsed_eq]
      exact h.reserved
    · cases ha with
      | split => exact ⟨h.count.group, h.count.total⟩
      | grow b =>
          have hcount := h.count.takeBlock (b := b)
          exact ⟨hcount.group, hcount.total⟩
      | full => exact h.count
  rcases ha.code with rfl | rfl
  · have hperm := ha.dirEntries_perm h.settled.sound hd h0 hlt
    have hself : ∀ name : EntryName, name.Proper → v'.link (q, name) =
        if name = e.name then some e.inode else v.link (q, name) := by
      intro name hn
      rw [link_dir ((ha.isDir_eq q).trans hd) hn, link_dir hd hn,
        lookup_insert hperm (h.settled.names q hd) hnew]
      split <;> rfl
    by_cases hn : e.name.Proper
    · have hout : ∀ i, i ∉ ({(q, e.name)} : Set (ℕ × EntryName)) → v'.link i = v.link i := by
        rintro ⟨m, name⟩ hi
        by_cases hm : m = q
        · subst hm
          by_cases hname : name.Proper
          · rw [hself name hname, if_neg]
            rintro rfl
            exact hi rfl
          · rw [link_dots hname, link_dots hname]
        · exact hother m hm name
      have hin : v'.link (q, e.name) = some e.inode := by
        rw [hself _ hn, if_pos rfl]
      refine ⟨_, hrest _ (h.links.replace {(q, e.name)} hout ?_ ?_)⟩
      · rintro i rfl j rfl b - -
        rfl
      · rintro i rfl b hb
        rw [hin, Option.some.injEq] at hb
        exact hb ▸ he
    · -- a dot entry in a directory without a block of its own is no link
      have hlink : v'.link = v.link := by
        ext1 ⟨m, name⟩
        by_cases hm : m = q
        · subst hm
          by_cases hname : name.Proper
          · rw [hself name hname, if_neg]
            rintro rfl
            exact hn hname
          · rw [link_dots hname, link_dots hname]
        · exact hother m hm name
      exact ⟨held, hrest held (hlink ▸ h.links)⟩
  · cases ha
    exact ⟨held, h⟩

/-- A removed entry leaves the inode it named held. -/
theorem unlinked {b : ℕ} {buf : Block} (h : Tree held (view s)) (hr : Removed env s r e b buf)
    (hn : r.name.Proper) : Tree (held ∪ {e.inode}) ((view s).setData b buf) := by
  obtain ⟨hmem, hname⟩ := mem_of_lookup hr.found
  rw [← hname] at hn
  have hq := hr.is_dir
  have hentry := h.settled.link_entry hq hmem hn
  have hperm := Volume.dirEntries_setData_perm' (h.settled.sound.dirBlocks_nodup _) hr.block hr.perm
  have hdir : ∀ m, (((view s).setData b buf).inode m).isDir = ((view s).inode m).isDir :=
    fun _ => rfl
  -- only the place of the removed name is emptied
  have hlink : ∀ m name, ((view s).setData b buf).link (m, name) =
      if (m, name) = (slotOf r.parent, e.name) then none else (view s).link (m, name) := by
    intro m name
    by_cases hmq : m = slotOf r.parent
    · subst hmq
      by_cases hp : name.Proper
      · rw [link_dir ((hdir _).trans hq) hp, link_dir hq hp,
          lookup_erase hperm (h.settled.names _ hq)]
        by_cases hne : name = e.name
        · rw [if_pos hne, if_pos (by rw [hne])]
          rfl
        · rw [if_neg hne, if_neg (fun he => hne (Prod.mk.inj he).2)]
      · rw [link_dots hp, link_dots hp, ite_self]
    · rw [if_neg (fun he => hmq (Prod.mk.inj he).1)]
      exact (untouched_setData h.settled.sound hr.block hmq).link_eq name
  have hout : ∀ i, i ∉ ({(slotOf r.parent, e.name)} : Set (ℕ × EntryName)) →
      ((view s).setData b buf).link i = (view s).link i := fun ⟨m, name⟩ hi =>
    (hlink m name).trans (if_neg hi)
  have hclear := h.links.clear {(slotOf r.parent, e.name)} hout
    (fun ⟨m, name⟩ hi => (hlink m name).trans (if_pos hi))
  have hheld : {b | ∃ i ∈ ({(slotOf r.parent, e.name)} : Set (ℕ × EntryName)),
      (view s).link i = some b} = {e.inode} := by
    ext m
    simp [hentry, eq_comm]
  rw [hheld] at hclear
  exact ⟨h.settled.setRemoved hr, h.root, h.reserved, hclear, ⟨h.count.group, h.count.total⟩⟩

/-- Giving back a held inode. What its entries named is then held. -/
theorem dealloc {t : ℕ} (h : Tree held v) (ht : t ∈ held) : ∃ held', Tree held' (v.dealloc t) := by
  obtain ⟨hgt, hle, hused⟩ := h.links.held_taken ht
  have hslot : IsSlot t := ⟨by omega, hle⟩
  have hgone : ∀ name, (v.dealloc t).link (t, name) = none := by
    intro name
    apply link_not_dir
    have hself := v.inode_dealloc_self t
    rw [hslot.slotOf] at hself
    rw [hself]
    exact Sound.zero_isDir
  have hkeep : ∀ m, m ≠ t → ∀ name, (v.dealloc t).link (m, name) = v.link (m, name) := by
    intro m hm name
    exact (v.untouched_dealloc (p := t) (m := m) (by rwa [hslot.slotOf])).link_eq name
  have hlive : (v.dealloc t).liveInodes = v.liveInodes \ {t} := by
    ext m
    simp only [Volume.liveInodes, Volume.inodeUsed_dealloc, Set.mem_ofPred_eq, Set.mem_sdiff,
      Set.mem_singleton_iff]
    by_cases hm : m = t
    · subst hm
      simp
    · rw [Function.update_of_ne hm]
      simp only [hm, not_false_eq_true, and_true]
  have hout : ∀ i, i ∉ {i : ℕ × EntryName | i.1 = t} → (v.dealloc t).link i = v.link i :=
    fun ⟨m, name⟩ hi => hkeep m hi name
  have hclear := h.links.clear {i | i.1 = t} hout fun ⟨m, name⟩ hi => by
    obtain rfl : m = t := hi
    exact hgone name
  have hrelease := hclear.release (Set.singleton_subset_iff.mpr (Or.inl ht))
  refine ⟨_, h.settled.dealloc hslot, ?_, ?_, hlive ▸ hrelease, h.count.dealloc hslot hused⟩
  · have hroot : rootInodeNo ≠ slotOf t := by
      rw [hslot.slotOf]
      exact (lt_trans (by decide) hgt).ne
    rw [Volume.inode_dealloc_ne _ hroot]
    exact h.root
  · intro m h1 h11
    rw [Volume.inodeUsed_dealloc, Function.update_of_ne (by omega)]
    exact h.reserved m h1 h11

/-- Removing an entry and giving back the inode it names. -/
theorem removed {b : ℕ} {buf : Block} (h : Tree held (view s)) (hr : Removed env s r e b buf)
    (hn : r.name.Proper) :
    ∃ held', Tree held' (((view s).setData b buf).dealloc e.inode) :=
  (h.unlinked hr hn).dealloc (Or.inr rfl)

/-! ## Whole calls -/

theorem write (h : Tree held (view s)) (hp : AllocatedDir s r.parent) :
    ∃ held', Tree held' (view (Ext2.write env s r).2) := by
  have hslot : IsSlot r.parent := isSlot_of_isDir hp.2
  rcases h.settled.write_dir env hp with hres | ⟨hf, n, P, x, v₃, hst, hadd⟩
  · rw [hres]
    exact ⟨held, h⟩
  · have hpn := hst.parent_ne hp
    refine (h.stored hst hslot).added hadd ?_ ?_ (Or.inr rfl) (h.settled.new_name hp hst hf)
    · rw [hst.inodeUsed_eq, Function.update_of_ne hpn]
      exact hp.1
    · rw [hst.inode_ne hpn]
      exact hp.2

end Tree

/-- The checks of `delete` refuse the request: the name is not found, the inode
is of the other kind, or it is a directory that is not empty. -/
def Refused (env : Env) (s : Fs) (r : Request) : Prop :=
  findEntryInDir env s r.parent r.name = 0 ∨
  ∃ x, readInode env s (findEntryInDir env s r.parent r.name) = some x ∧
    (x.isDir ≠ r.is_directory ∨ r.is_directory = true ∧
      isDirectoryEmpty env s (findEntryInDir env s r.parent r.name) = false)

/-- The delete requests that do not follow `"."` or `".."` to an inode they remove. -/
def KeepsDots (s : Fs) (r : Request) : Prop := r.name.Proper ∨ ∀ env, Refused env s r

theorem Removed.not_refused {r : Request} {b : ℕ} {buf : Block} (hr : Removed env s r e b buf)
    (h : Settled (view s)) (hp : IsSlot r.parent) : ¬ Refused env s r := by
  have hd := hr.is_dir
  have hlook := hr.found
  rw [hp.slotOf] at hd hlook
  have ht := (h.sound.dirs _ hd).targets e (mem_of_lookup hlook).1
  have hfind : findEntryInDir env s r.parent r.name = e.inode := by
    obtain ⟨hmem, hname⟩ := mem_of_lookup hlook
    rw [← hname]
    exact h.find_entry env hd hmem
  have hkind := hr.kind
  rw [ht.slotOf] at hkind
  unfold Refused
  rw [hfind, (addresses_inTable_slot h.sound.tables ht).readInode]
  rintro (h0 | ⟨x, hx, hno⟩)
  · exact absurd h0 ht.ne_zero
  · rw [Option.some.injEq] at hx
    subst hx
    rcases hno with hno | ⟨hdir, hno⟩
    · exact hno hkind
    · rw [hr.empty hdir] at hno
      cases hno

theorem Tree.delete {r : Request} (h : Tree held (view s)) (hp : AllocatedDir s r.parent)
    (hdots : KeepsDots s r) : ∃ held', Tree held' (view (Ext2.delete env s r).2) := by
  have hslot : IsSlot r.parent := isSlot_of_isDir hp.2
  rcases delete_cases env h.settled.sound (fun n hn => hn.inTable) (Or.inr hslot.inTable) with
    ⟨code, -, hres⟩ | ⟨e, b, buf, hrem, -, hview⟩
  · rw [hres]
    exact ⟨held, h⟩
  · rw [hview]
    rcases hdots with hn | hrefused
    · exact h.removed hrem hn
    · exact absurd (hrefused env) (hrem.not_refused h.settled hslot)

/-! ## Every run -/

theorem fresh_tree (disk : ℕ → Block) : Tree ∅ (freshVolume disk) where
  settled := fresh_settled disk
  root := by
    change rootInode.isDir = true
    decide +kernel
  reserved := fun n h1 h11 => decide_eq_true ⟨h1, h11⟩
  links := by
    have hlink : ∀ i, (freshVolume disk).link i = none := by
      rintro ⟨n, name⟩
      by_cases hd : ((freshVolume disk).inode n).isDir = true
      · obtain rfl := fresh_isDir disk hd
        by_cases hn : name.Proper
        · rw [link_dir hd hn, fresh_dirEntries, Option.map_eq_none_iff, lookup_eq_none]
          simp only [List.map_cons, List.map_nil, List.mem_cons, List.not_mem_nil, or_false]
          rintro (rfl | rfl)
          · exact hn.1 rfl
          · exact hn.2 rfl
        · exact link_dots hn
      · exact link_not_dir (by simpa using hd)
    refine ⟨fun {i j b} hi _ => ?_, fun _ => Set.notMem_empty _, fun b => ?_⟩
    · rw [hlink] at hi
      cases hi
    · simp only [hlink, Set.mem_empty_iff_false, reduceCtorEq, exists_false, or_self, iff_false]
      rintro ⟨hgt, -, hu⟩
      have hle : 1 ≤ b ∧ b ≤ 11 := of_decide_eq_true hu
      exact absurd hgt (not_lt.mpr hle.2)
  count := fresh_inodeCount disk

/-- Calls on directories, with no removal through `"."` or `".."`. -/
def TreeCall (s : Fs) (c : Call) : Prop :=
  AllocatedDir s c.request.parent ∧ ∀ r, c = .delete r → KeepsDots s r

theorem Tree.call {c : Call} (h : Tree held (view s)) (hc : TreeCall s c) :
    ∃ held', Tree held' (view (c.run env s).2) := by
  obtain ⟨hp, hdots⟩ := hc
  cases c with
  | write r => exact h.write hp
  | delete r => exact h.delete hp (hdots r rfl)

theorem reachable_tree (h : Reachable TreeCall s) : ∃ held, Tree held (view s) := by
  refine h.induct (fun v => ∃ held, Tree held v) (fun disk => ⟨∅, fresh_tree disk⟩) ?_
  rintro env s c ⟨held, htree⟩ hok
  exact htree.call hok

/-- Writes and deletes in the root directory under proper names. -/
theorem reachable_onRoot {cs : List Call} {s : Fs} (h : Reachable TreeCall s)
    (hcs : ∀ c ∈ cs, c.request.parent = rootInodeNo ∧ c.request.name.Proper) :
    Reachable TreeCall (runCalls cs s) := by
  induction cs generalizing s with
  | nil => exact h
  | cons c cs ih =>
      obtain ⟨hp, hn⟩ := hcs c List.mem_cons_self
      obtain ⟨held, htree⟩ := reachable_tree h
      refine ih (h.step .zero ⟨?_, ?_⟩) fun c' hc' => hcs c' (List.mem_cons_of_mem _ hc')
      · rw [hp]
        exact ⟨htree.root_used, htree.root⟩
      · rintro r rfl
        exact Or.inl hn

/-! ## Integrity of the tree -/

/-- Entry `e` of the allocated directory `d` is another than `"."` and `".."`. -/
def Names (s : Fs) (d : ℕ) (e : DirEntry) : Prop :=
  AllocatedDir s d ∧ e ∈ (view s).dirEntries d ∧ e.name.Proper

/-- The inodes that a path of names leads to from the root. -/
def FromRoot (s : Fs) (p : ℕ) : Prop :=
  Relation.ReflTransGen (fun d m => ∃ e, Names s d e ∧ e.inode = m) rootInodeNo p

/-- What the directory tree promises. -/
structure TreeIntact (s : Fs) : Prop where
  root : AllocatedDir s rootInodeNo
  allocated : ∀ d e, Names s d e → inodeUsed s e.inode = true
  once : ∀ d d' e e', Names s d e → Names s d' e' → e.inode = e'.inode → d = d' ∧ e = e'

/-- Calls on a directory that a path from the root leads to, under a non-empty name. -/
def OnTree (s : Fs) (c : Call) : Prop :=
  FromRoot s c.request.parent ∧ (inodeAt s c.request.parent).isDir = true ∧
    c.request.name.len ≠ 0

/-- Such calls, with no removal through `"."` or `".."`. -/
def OnTreeKeepingDots (s : Fs) (c : Call) : Prop :=
  OnTree s c ∧ ∀ r, c = .delete r → KeepsDots s r

theorem Tree.link_names (h : Tree held (view s)) {d : ℕ} (hn : Names s d e) :
    (view s).link (d, e.name) = some e.inode :=
  h.settled.link_entry hn.1.2 hn.2.1 hn.2.2

theorem Tree.intact (h : Tree held (view s)) : TreeIntact s where
  root := ⟨h.root_used, h.root⟩
  allocated := fun d e hn => (h.links.own_taken (h.link_names hn)).2.2
  once := by
    intro d d' e e' hn hn' he
    have hlink' := h.link_names hn'
    rw [← he] at hlink'
    obtain ⟨rfl, hname⟩ := Prod.mk.inj (h.links.inj (h.link_names hn) hlink')
    refine ⟨rfl, ?_⟩
    exact List.inj_on_of_nodup_map (h.settled.names d hn.1.2) hn.2.1 hn'.2.1 hname

/-- On an intact tree a directory below the root is allocated. -/
theorem Tree.allocated_of_path (h : Tree held (view s)) {p : ℕ} (hp : FromRoot s p)
    (hd : (inodeAt s p).isDir = true) : AllocatedDir s p := by
  cases hp with
  | refl => exact h.intact.root
  | tail _ hlast =>
      obtain ⟨e, hn, rfl⟩ := hlast
      exact ⟨h.intact.allocated _ e hn, hd⟩

/-- **The directory tree stays intact** in every run that does not delete
through `"."` or `".."`. -/
theorem tree_intact (h : Reachable OnTreeKeepingDots s) : TreeIntact s := by
  have hinv : ∃ held, Tree held (view s) := by
    refine h.induct (fun v => ∃ held, Tree held v) (fun disk => ⟨∅, fresh_tree disk⟩) ?_
    rintro env s c ⟨held, htree⟩ ⟨⟨hpath, hd, -⟩, hdots⟩
    exact htree.call ⟨htree.allocated_of_path hpath hd, hdots⟩
  obtain ⟨held, htree⟩ := hinv
  exact htree.intact

theorem tree_intact_small_file : TreeIntact (smallFile.run .zero freshFs).2 := by
  apply tree_intact
  apply (Reachable.fresh OnTreeKeepingDots).step .zero
  refine ⟨⟨.refl, show (inodeAt freshFs 2).isDir = true by decide +kernel, by decide⟩, ?_⟩
  rintro r ⟨⟩

/-- The removal of `"."` in the root directory. -/
def dropRoot : Call := .delete (.folder 2 .dot)

/-- `delete` takes `"."` for a name like any other. On a fresh file system it
finds the root directory empty and gives back its inode and its block. -/
theorem delete_dot_frees_root :
    Reachable OnTree (dropRoot.run .zero freshFs).2 ∧
      ¬ TreeIntact (dropRoot.run .zero freshFs).2 := by
  constructor
  · apply (Reachable.fresh OnTree).step .zero
    exact ⟨.refl, show (inodeAt freshFs 2).isDir = true by decide +kernel, by decide⟩
  · intro h
    exact absurd h.root (by decide +kernel)

end RendangOS.Ext2
