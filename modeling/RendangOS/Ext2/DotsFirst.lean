import RendangOS.Ext2.EntryKind
import RendangOS.Ext2.Removal

/-!
# Removing a directory that was stored whole

`is_directory_empty` skips the first two records of the first block, whatever
they hold. A directory that has a `"."` at all was stored with its block, and
keeps `"."` and `".."` as its first two records: `"."` has no slack to give away,
and neither of them is removed. For such a directory the test is exact, and
`delete` answers by the children alone.
-/

namespace RendangOS.Ext2

open Image RecordChain Assoc

variable {env : Env} {s : Fs} {v v' : Volume} {held : Set ℕ} {n q : ℕ} {r : Request}
  {e : DirEntry} {c : Call}

/-- A chain that begins with a `"."` without slack and a `".."`. -/
def LedByDots : List (Rec DirEntry) → Prop
  | first :: second :: _ => first.len = first.need ∧
      first.item.map DirEntry.name = some .dot ∧ second.item.map DirEntry.name = some .dotdot
  | _ => False

theorem LedByDots.length_ne {rs : List (Rec DirEntry)} (h : LedByDots rs) : rs.length ≠ 1 := by
  match rs, h with
  | _ :: _ :: rest, _ => simp

theorem LedByDots.insert {need : ℕ} {rs rs' : List (Rec DirEntry)} (h : LedByDots rs)
    (hneed : 0 < need) (hins : RecordChain.insert need e rs = some rs') : LedByDots rs' := by
  match rs, h with
  | first :: second :: rest, ⟨hlen, hdot, hdotdot⟩ =>
    rw [RecordChain.insert, if_neg (by omega), RecordChain.insert] at hins
    split at hins
    · cases hins
      exact ⟨hlen, hdot, hdotdot⟩
    · obtain ⟨_, hsome, rfl⟩ := Option.map_eq_some_iff.mp hins
      obtain ⟨rest', -, rfl⟩ := Option.map_eq_some_iff.mp hsome
      exact ⟨hlen, hdot, hdotdot⟩

/-- Whatever `removeAfter` joins, it joins behind the first two records. -/
theorem LedByDots.remove {name : EntryName} {rs rs' : List (Rec DirEntry)} (h : LedByDots rs)
    (hname : name.Proper)
    (hrem : RecordChain.remove (fun e => decide (e.name = name)) rs = some rs') :
    LedByDots rs' := by
  have hkeep : ∀ {item : Option DirEntry} {dots : EntryName}, item.map DirEntry.name = some dots →
      dots ≠ name → ¬ item.any (fun e => decide (e.name = name)) = true := by
    rintro (_ | d) dots hitem hne <;> simp_all
  match rs, h with
  | first :: second :: rest, ⟨hlen, hdot, hdotdot⟩ =>
    rw [RecordChain.remove, if_neg (hkeep hdot hname.1.symm), removeAfter,
      if_neg (hkeep hdotdot hname.2.symm)] at hrem
    obtain ⟨rest', hsome, rfl⟩ := Option.map_eq_some_iff.mp hrem
    cases rest with
    | nil => cases hsome
    | cons third rest =>
        rw [removeAfter] at hsome
        split at hsome
        · cases hsome
          exact ⟨hlen, hdot, hdotdot⟩
        · obtain ⟨_, -, rfl⟩ := Option.map_eq_some_iff.mp hsome
          exact ⟨hlen, hdot, hdotdot⟩

/-- Directory `d` has a first block, and that begins with the dot entries. -/
def Volume.DotsFirst (v : Volume) (d : ℕ) : Prop :=
  ∃ b bs, v.dirBlocks d = b :: bs ∧ LedByDots (blockRecs (v.data b))

/-- `"."` is in a directory only where it stands first. -/
def WholeDirs (v : Volume) : Prop :=
  ∀ d, (v.inode d).isDir = true → .dot ∈ (v.dirEntries d).map DirEntry.name → v.DotsFirst d

theorem Untouched.dotsFirst {d : ℕ} (h : Untouched v v' d) (hd : v.DotsFirst d) :
    v'.DotsFirst d := by
  obtain ⟨b, bs, hbs, hled⟩ := hd
  refine ⟨b, bs, h.dirBlocks_eq.trans hbs, ?_⟩
  rw [h.data_dirBlocks (hbs ▸ List.mem_cons_self)]
  exact hled

theorem EXT2Inode.block_mem_dirBlocks {x : EXT2Inode} {i : ℕ} (hi : i < 12)
    (h : ∀ j ≤ i, x.block j ≠ 0) : x.block i ∈ x.dirBlocks := by
  obtain ⟨k, hk, heq, -, hzero⟩ := x.dirBlocks_eq
  rw [heq]
  refine List.mem_map_of_mem (List.mem_range.mpr ?_)
  by_contra hki
  exact h k (by omega) (hzero (by omega))

/-- `add_entry_to_dir` leaves the chain of a block as it is, or inserts into it. -/
theorem addEntryToDir_chain {p b : ℕ} (ha : Addresses env s p n) (h : (view s).DirShape n)
    (hm : (view s).MetaUsed) (hu : (view s).blockUsed b = true) (h0 : e.inode ≠ 0)
    (hlt : e.inode < 2 ^ 32)
    (hv : view (addEntryToDir env s p e.inode e.name e.fileType).2 = v') :
    blockRecs (v'.data b) = blockRecs ((view s).data b) ∨
      RecordChain.insert (getEntryRecordLen e.name.len) e (blockRecs ((view s).data b)) =
        some (blockRecs (v'.data b)) := by
  rcases addEntryToDir_cases ha e with
    ⟨hres, -⟩ | ⟨i, hi, hpre, ⟨buf, h0i, hsome, hres⟩ | ⟨-, hres⟩⟩
  · rw [hres] at hv
    exact Or.inl (hv ▸ rfl)
  · have hmem : ((view s).inode n).block i ∈ (view s).dirBlocks n := by
      refine EXT2Inode.block_mem_dirBlocks hi fun j hj => ?_
      rcases Nat.lt_or_eq_of_le hj with hlt' | rfl
      · exact (hpre j hlt').1
      · exact h0i
    have hbound := h.bounds _ hmem
    unfold scanBlock at hsome
    rw [readBlocks_dir h hmem] at hsome
    have hscan := addScan_spec e.name e.fileType
      (agree_frame env s ((view s).data (((view s).inode n).block i))) h0 hlt blockSize
      (tiles_frame (h.tiled _ hmem)) (by simp only [blockSize]; omega)
    rw [hsome] at hscan
    obtain ⟨rs', hins, htiles, -⟩ := hscan
    rw [hres, view_writeBlocks s buf hbound.1 (lt_trans hbound.2 (by decide))] at hv
    have hdata : v'.data = Function.update (view s).data (((view s).inode n).block i) buf :=
      hv ▸ rfl
    rw [hdata]
    by_cases hbi : b = ((view s).inode n).block i
    · subst hbi
      rw [Function.update_self, blockRecs_eq htiles]
      exact Or.inr hins
    · rw [Function.update_of_ne hbi]
      exact Or.inl rfl
  · rw [hres] at hv
    rcases growDir_cases ha hm ((view s).inode n) e i with ⟨-, hfail⟩ | ⟨c, hc, -, -, hview⟩
    · rw [hfail] at hv
      exact Or.inl (hv ▸ rfl)
    · rw [hview] at hv
      refine Or.inl ?_
      rw [← hv, Volume.data_grow_ne]
      rintro rfl
      rw [hc.unused] at hu
      cases hu

namespace WholeDirs

/-- With fewer directories and, in each, no new `"."`. -/
theorem of_dirs (h : WholeDirs v)
    (hdir : ∀ d, (v'.inode d).isDir = true → .dot ∈ (v'.dirEntries d).map DirEntry.name →
      (v.inode d).isDir = true ∧ .dot ∈ (v.dirEntries d).map DirEntry.name ∧
        (v.DotsFirst d → v'.DotsFirst d)) : WholeDirs v' := by
  intro d hd hdot
  obtain ⟨hd', hdot', himp⟩ := hdir d hd hdot
  exact himp (h d hd' hdot')

theorem stored {P : List ℕ} {x : EXT2Inode} (h : WholeDirs v) (hs : Settled v)
    (hst : Stored v r n P x v') (hp : IsSlot r.parent) : WholeDirs v' := by
  have hp0 : r.parent ≠ 0 := hp.ne_zero
  intro d hd hdot
  by_cases hdn : d = n
  · subst hdn
    rw [hst.inode_self, hst.isDir] at hd
    rw [hst.dirEntries_eq hd hp0] at hdot
    split at hdot
    · simp at hdot
    · next hne =>
      have hslot : IsSlot d := hst.slot
      obtain ⟨b, bs, hbs⟩ := List.exists_cons_of_ne_nil hne
      refine ⟨b, bs, (hst.dirBlocks_eq hd).trans hbs, ?_⟩
      rw [hst.dir_data hd (hbs ▸ List.mem_cons_self),
        blockRecs_eq (tiles_dotEntries hslot.ne_zero hslot.lt_word hp0 hp.lt_word)]
      exact ⟨rfl, rfl, rfl⟩
  · have hun := hst.untouched hs.sound hdn
    rw [hun.inode] at hd
    rw [hun.dirEntries_eq] at hdot
    exact hun.dotsFirst (h d hd hdot)

theorem added {code : ℤ} (h : WholeDirs v) (hs : Settled v) (ha : Added v q e code v')
    (hd : (v.inode q).isDir = true) (hn : IsSlot e.inode) (hname : e.name.Proper)
    (hchain : ∀ b ∈ v.dirBlocks q, blockRecs (v'.data b) = blockRecs (v.data b) ∨
      RecordChain.insert (getEntryRecordLen e.name.len) e (blockRecs (v.data b)) =
        some (blockRecs (v'.data b))) : WholeDirs v' := by
  rcases ha.code with rfl | rfl
  · have hperm := ha.dirEntries_perm hs.sound hd hn.ne_zero hn.lt_word
    refine h.of_dirs fun d hdir hdot => ?_
    rw [ha.isDir_eq] at hdir
    by_cases hdq : d = q
    · subst hdq
      refine ⟨hdir, ?_, ?_⟩
      · have hmem := (hperm.map DirEntry.name).mem_iff.mp hdot
        rw [List.map_cons, List.mem_cons] at hmem
        exact hmem.resolve_left hname.1.symm
      · rintro ⟨b, bs, hbs, hled⟩
        have hblocks : ∃ bs', v'.dirBlocks d = b :: bs' := by
          cases ha with
          | split => exact ⟨bs, hbs⟩
          | grow c _ hlen hc _ =>
              refine ⟨bs ++ [c], ?_⟩
              have hge := hc.ge hs.sound.meta_used
              have hlt := hc.lt
              rw [Volume.dirBlocks_grow (hs.sound.dirs _ hd).contiguous hlen (by omega) (by omega),
                hbs, List.cons_append]
        obtain ⟨bs', hbs'⟩ := hblocks
        refine ⟨b, bs', hbs', ?_⟩
        rcases hchain b (hbs ▸ List.mem_cons_self) with heq | hins
        · rwa [heq]
        · exact hled.insert (by have := recordLen_ge e.name.len; omega) hins
    · have hun := ha.untouched hs.sound hdq
      rw [hun.dirEntries_eq] at hdot
      exact ⟨hdir, hdot, hun.dotsFirst⟩
  · cases ha
    exact h

theorem write (env : Env) (h : WholeDirs (view s)) (hs : Settled (view s))
    (hp : AllocatedDir s r.parent) (hname : r.name.Proper) :
    WholeDirs (view (Ext2.write env s r).2) := by
  have hslot : IsSlot r.parent := isSlot_of_isDir hp.2
  rcases write_cases env hs.sound r with
    ⟨-, hres⟩ | ⟨-, -, hres⟩ | ⟨-, -, -, hres⟩ | ⟨-, -, n, P, x, -, hst, hres⟩
  · rwa [hres]
  · rwa [hres]
  · rwa [hres]
  · generalize storedState env s r = s₃ at hst hres
    have hs₃ := hs.stored hst hslot
    have hpn := hst.parent_ne hp
    have hd₃ : ((view s₃).inode r.parent).isDir = true := by
      rw [hst.inode_ne hpn]
      exact hp.2
    have hn : IsSlot n := hst.slot
    have ha : Addresses env s₃ r.parent r.parent := by
      have hq : Addresses env s₃ r.parent (slotOf r.parent) :=
        addresses_inTable hs₃.sound.tables hslot.inTable
      rwa [hslot.slotOf] at hq
    have hadd := hs₃.sound.added env hslot.inTable (e := r.entry n)
      (by rw [hslot.slotOf]; exact hd₃) hn.ne_zero hn.lt_word
    rw [hslot.slotOf] at hadd
    have hafter : view (addEntryToDir env s₃ r.parent (r.entry n).inode (r.entry n).name
        (r.entry n).fileType).2 = view (Ext2.write env s r).2 := by
      rw [hres]
      rfl
    rw [hafter] at hadd
    exact (h.stored hs hst hslot).added hs₃ hadd hd₃ hn hname fun b hb =>
      addEntryToDir_chain ha (hs₃.sound.shape hd₃) hs₃.sound.meta_used
        (hs₃.sound.dirBlocks_taken hb).2.2 hn.ne_zero hn.lt_word hafter

theorem delete (env : Env) (h : WholeDirs (view s)) (ht : Tree held (view s))
    (hp : AllocatedDir s r.parent) (hname : r.name.Proper) :
    WholeDirs (view (Ext2.delete env s r).2) := by
  have hslot : IsSlot r.parent := isSlot_of_isDir hp.2
  have hs := ht.settled
  rcases delete_cases env hs.sound (fun n hn => hn.inTable) (Or.inr hslot.inTable) with
    ⟨code, -, hres⟩ | ⟨e, b, buf, hrem, -, hview⟩
  · rwa [hres]
  · rw [hview]
    refine h.of_dirs fun d hd hdot => ?_
    obtain ⟨hdir, hsub⟩ := deleted_sub ht hrem hd
    have hmem : .dot ∈ ((view s).dirEntries d).map DirEntry.name := by
      obtain ⟨c, hc, hcn⟩ := List.mem_map.mp hdot
      exact List.mem_map.mpr ⟨c, hsub c hc, hcn⟩
    refine ⟨hdir, hmem, fun hfirst => ?_⟩
    have hdt : d ≠ slotOf e.inode := by
      rintro rfl
      rw [Volume.inode_dealloc_self, Sound.zero_isDir] at hd
      cases hd
    refine (((view s).setData b buf).untouched_dealloc hdt).dotsFirst ?_
    by_cases hdq : d = slotOf r.parent
    · obtain ⟨a, as, has, hled⟩ := hfirst
      refine ⟨a, as, has, ?_⟩
      change LedByDots (blockRecs (Function.update (view s).data b buf a))
      by_cases hab : a = b
      · subst hab
        rw [Function.update_self]
        exact hled.remove hname hrem.chain
      · rwa [Function.update_of_ne hab]
    · exact (untouched_setData hs.sound hrem.block hdq).dotsFirst hfirst

end WholeDirs

theorem fresh_wholeDirs (disk : ℕ → Block) : WholeDirs (freshVolume disk) := by
  intro d hd _
  obtain rfl := fresh_isDir disk hd
  refine ⟨21, [], fresh_dirBlocks disk, ?_⟩
  change LedByDots (blockRecs (dotEntries 2 2))
  rw [blockRecs_eq (tiles_dotEntries (by decide) (by decide) (by decide) (by decide))]
  exact ⟨rfl, rfl, rfl⟩

theorem reachable_wholeDirs (h : Reachable ProperCall s) : WholeDirs (view s) := by
  have hinv : (∃ held, Tree held (view s)) ∧ WholeDirs (view s) := by
    refine h.induct (fun v => (∃ held, Tree held v) ∧ WholeDirs v)
      (fun disk => ⟨⟨∅, fresh_tree disk⟩, fresh_wholeDirs disk⟩) ?_
    rintro env s c ⟨⟨held, ht⟩, hw⟩ hc
    refine ⟨ht.call hc.treeCall, ?_⟩
    cases c with
    | write r => exact hw.write env ht.settled hc.1 hc.2
    | delete r => exact hw.delete env ht hc.1 hc.2
  exact hinv.2

/-! ## The test for emptiness -/

theorem Volume.DotsFirst.entries (h : (view s).DotsFirst n) :
    ∃ a c, a.name = .dot ∧ c.name = .dotdot ∧
      (view s).dirEntries n = a :: c :: behindDots s n := by
  obtain ⟨b, bs, hbs, hled⟩ := h
  have hbehind : behindDots s n = items ((blockRecs ((view s).data b)).drop 2) ++
      bs.flatMap fun c => blockEntries ((view s).data c) := by
    unfold behindDots
    rw [hbs]
  have hentries : (view s).dirEntries n = items (blockRecs ((view s).data b)) ++
      bs.flatMap fun c => blockEntries ((view s).data c) := by
    rw [Volume.dirEntries, hbs, List.flatMap_cons, blockEntries]
  generalize blockRecs ((view s).data b) = rs at hled hbehind hentries
  rcases rs with _ | ⟨first, _ | ⟨second, rest⟩⟩
  · cases hled
  · cases hled
  · obtain ⟨-, hdot, hdotdot⟩ := hled
    obtain ⟨a, ha, hadot⟩ := Option.map_eq_some_iff.mp hdot
    obtain ⟨c, hc, hcdot⟩ := Option.map_eq_some_iff.mp hdotdot
    refine ⟨a, c, hadot, hcdot, ?_⟩
    simp [hentries, hbehind, items_cons, ha, hc]

/-- Behind the dot entries stand the children. -/
theorem Settled.hasChild_iff (hs : Settled (view s)) (hd : (inodeAt s n).isDir = true)
    (hfirst : (view s).DotsFirst n) : HasChild s n ↔ behindDots s n ≠ [] := by
  obtain ⟨a, c, ha, hc, hentries⟩ := hfirst.entries
  have hnames := hs.names n hd
  rw [hentries, List.map_cons, List.map_cons, ha, hc, List.nodup_cons, List.nodup_cons] at hnames
  constructor
  · rintro ⟨-, e, he, hproper⟩ hnil
    rw [hentries, hnil, List.mem_cons, List.mem_singleton] at he
    rcases he with rfl | rfl
    · exact hproper.1 ha
    · exact hproper.2 hc
  · intro hne
    obtain ⟨e, es, hbehind⟩ := List.exists_cons_of_ne_nil hne
    refine ⟨hd, e, by simp [hentries, hbehind], ?_, ?_⟩
    · rintro hdot
      exact hnames.1 (by simp [hbehind, hdot])
    · rintro hdot
      exact hnames.2.1 (by simp [hbehind, hdot])

theorem Settled.isDirectoryEmpty_exact (env : Env) (hs : Settled (view s))
    (hd : (inodeAt s n).isDir = true) (hfirst : (view s).DotsFirst n) :
    isDirectoryEmpty env s n = true ↔ ¬ HasChild s n := by
  constructor
  · intro hempty hchild
    rw [hs.isDirectoryEmpty_of_behind env hd ((hs.hasChild_iff hd hfirst).mp hchild)] at hempty
    cases hempty
  · intro hno
    have hnil := not_not.mp (mt (hs.hasChild_iff hd hfirst).mpr hno)
    rw [hs.isDirectoryEmpty_iff env hd]
    obtain ⟨b, bs, hbs, hled⟩ := hfirst
    have hmem : b ∈ (view s).dirBlocks n := hbs ▸ List.mem_cons_self
    have htiles := (hs.sound.shape hd).tiled b hmem
    unfold behindDots at hnil
    rw [hbs] at hnil ⊢
    obtain ⟨hbehind, hrest⟩ := List.append_eq_nil_iff.mp hnil
    exact ⟨(emptyScan_firstBlock env s htiles fun hone => absurd hone hled.length_ne).mpr hbehind,
      hrest⟩

end RendangOS.Ext2
