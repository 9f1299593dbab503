import RendangOS.Ext2.Create

/-!
# A directory is a finite map

The abstract model of a directory is a finite map from names to inode numbers.
From any well-formed directory, `add_entry_to_dir` and `remove_entry_from_dir`
simulate extension and restriction of the map, over every sequence of calls,
and `find_entry_in_dir` reads the map.
-/

namespace RendangOS.Ext2

open Image RecordChain Assoc

/-! ## The abstract map -/

abbrev NameMap := EntryName → Option ℕ

/-- The calls that change a directory. -/
inductive DirOp where
  | add (inode : ℕ) (name : EntryName) (fileType : BitVec 8)
  | remove (name : EntryName)

/-- What a call that returns `code` does to the map. -/
def NameMap.step (m : NameMap) (op : DirOp) (code : ℤ) : NameMap :=
  if code = 0 then
    match op with
    | .add inode name _ => Function.update m name (some inode)
    | .remove name => Function.update m name none
  else m

/-- An added name is new and its inode number is a non-zero word. -/
def DirOp.Admissible (m : NameMap) : DirOp → Prop
  | .add inode name _ => inode ≠ 0 ∧ inode < 2 ^ 32 ∧ m name = none
  | .remove _ => True

def DirOp.run (env : Env) (s : Fs) (d : ℕ) : DirOp → ℤ × Fs
  | .add inode name fileType => addEntryToDir env s d inode name fileType
  | .remove name => removeEntryFromDir env s d name

/-- A sequence of admissible calls on directory `d`, with the map at its side. -/
inductive DirRun (d : ℕ) (s : Fs) (m : NameMap) : Fs → NameMap → Prop
  | nil : DirRun d s m s m
  | snoc {s' : Fs} {m' : NameMap} (env : Env) (op : DirOp) :
      DirRun d s m s' m' → op.Admissible m' →
      DirRun d s m (op.run env s' d).2 (m'.step op (op.run env s' d).1)

/-! ## Well-formed directories -/

structure DirWellFormed (s : Fs) (d : ℕ) : Prop where
  slot : 1 ≤ d ∧ d ≤ inodesPerGroup
  table : s.group0.bg_inode_table = BitVec.ofNat 32 inodeTableLba
  is_dir : (inodeAt s d).isDir = true
  contiguous : ∀ i j, i ≤ j → j < 12 → (inodeAt s d).block i = 0 → (inodeAt s d).block j = 0
  distinct : ∀ i j, i < 12 → j < 12 → (inodeAt s d).block i ≠ 0 →
    (inodeAt s d).block i = (inodeAt s d).block j → i = j
  outside : ∀ i < 12, (inodeAt s d).block i ≠ 0 → rootDirBlockLba ≤ (inodeAt s d).block i
  used : ∀ i < 12, (inodeAt s d).block i ≠ 0 → blockUsed s ((inodeAt s d).block i) = true
  meta_used : ∀ b < rootDirBlockLba, blockUsed s b = true
  tiled : ∀ i < 12, (inodeAt s d).block i ≠ 0 →
    ∃ rs, Tiles (s.disk ((inodeAt s d).block i)) 0 rs
  names : (((view s).dirEntries d).map DirEntry.name).Nodup

/-- The name map of a directory. -/
def nameMap (s : Fs) (d : ℕ) : NameMap := fun name =>
  (lookup DirEntry.name ((view s).dirEntries d) name).map DirEntry.inode

/-- Well-formedness as the proofs use it. -/
structure Volume.DirInv (v : Volume) (d : ℕ) : Prop where
  slot : 1 ≤ d ∧ d ≤ 64
  table : v.group0.bg_inode_table = 5
  is_dir : (v.inode d).isDir = true
  shape : v.DirShape d
  contiguous : v.Contiguous d
  nodup : (v.dirBlocks d).Nodup
  used : ∀ b ∈ v.dirBlocks d, v.blockUsed b = true
  meta_used : v.MetaUsed
  names : ((v.dirEntries d).map DirEntry.name).Nodup

theorem DirWellFormed.inv {s : Fs} {d : ℕ} (h : DirWellFormed s d) : (view s).DirInv d where
  slot := h.slot
  table := h.table
  is_dir := h.is_dir
  shape := by
    have hbound : ∀ b ∈ (view s).dirBlocks d, 21 ≤ b ∧ b < 4096 := by
      intro b hb
      obtain ⟨h0, i, hi, rfl⟩ := EXT2Inode.mem_dirBlocks (x := inodeAt s d) hb
      refine ⟨h.outside i hi h0, ?_⟩
      by_contra hge
      have hused := h.used i hi h0
      rw [blockUsed, BitVec.getLsbD_of_ge _ _ (by omega)] at hused
      cases hused
    refine ⟨hbound, fun b hb => ?_⟩
    have hge := (hbound b hb).1
    obtain ⟨h0, i, hi, rfl⟩ := EXT2Inode.mem_dirBlocks (x := inodeAt s d) hb
    obtain ⟨rs, hrs⟩ := h.tiled i hi h0
    rw [view_data s hge, blockRecs_eq hrs]
    exact hrs
  contiguous := h.contiguous
  nodup := nodup_dirBlocks h.distinct
  used := by
    intro b hb
    obtain ⟨h0, i, hi, rfl⟩ := EXT2Inode.mem_dirBlocks (x := inodeAt s d) hb
    exact h.used i hi h0
  meta_used := h.meta_used
  names := h.names

namespace Volume.DirInv

variable {env : Env} {s : Fs} {d : ℕ}

theorem addresses (env : Env) (h : (view s).DirInv d) : Addresses env s d d :=
  addresses_slot h.table h.slot

theorem find_eq (h : (view s).DirInv d) (name : EntryName) :
    findEntryInDir env s d name = (nameMap s d name).getD 0 := by
  rw [findEntryInDir_eq (h.addresses env) h.shape, if_pos h.is_dir]
  rfl

/-- Rewriting one tiled block keeps everything but the names. -/
theorem setData {v : Volume} {b : ℕ} {buf : Block} (h : v.DirInv d)
    (ht : Tiles buf 0 (blockRecs buf))
    (hnames : (((v.setData b buf).dirEntries d).map DirEntry.name).Nodup) :
    (v.setData b buf).DirInv d :=
  ⟨h.slot, h.table, h.is_dir, h.shape.setData ht, h.contiguous, h.nodup, h.used, h.meta_used,
    hnames⟩

/-- So does giving the directory a new block. -/
theorem grow {v : Volume} {b : ℕ} {e : DirEntry} (h : v.DirInv d)
    (hlen : (v.dirBlocks d).length < 12) (hleast : v.LeastFree b) (hout : b ∉ v.dirBlocks d)
    (h0 : e.inode ≠ 0) (hlt : e.inode < 2 ^ 32)
    (hnames : (((v.grow d (v.inode d) (v.dirBlocks d).length b e).dirEntries d).map
      DirEntry.name).Nodup) :
    (v.grow d (v.inode d) (v.dirBlocks d).length b e).DirInv d := by
  have hge := hleast.ge h.meta_used
  have hb : b < 4096 := lt_trans hleast.lt (by decide)
  have hblocks := dirBlocks_grow (e := e) h.contiguous hlen (show b ≠ 0 by omega)
    (show b < 2 ^ 32 by omega)
  refine ⟨h.slot, (table_grow _).trans h.table, ?_, h.shape.grow h.contiguous hlen hge hb hout h0
    hlt, contiguous_grow h.contiguous hlen (by omega) (by omega), ?_, ?_, ?_, hnames⟩
  · rw [inode_grow_self, growInode_isDir]
    exact h.is_dir
  · rw [hblocks]
    refine List.nodup_append.mpr ⟨h.nodup, List.nodup_singleton b, fun c hc c' hc' => ?_⟩
    rw [List.mem_singleton.mp hc']
    exact ne_of_mem_of_not_mem hc hout
  · rw [hblocks]
    intro c hc
    rw [blockUsed_grow]
    rcases List.mem_append.mp hc with hc | hc
    · rw [h.used c hc, ite_self]
    · rw [if_pos (List.mem_singleton.mp hc)]
  · intro c hc
    rw [blockUsed_grow, h.meta_used c hc, ite_self]

/-! ## One call -/

theorem remove (env : Env) (h : (view s).DirInv d) (name : EntryName) :
    (removeEntryFromDir env s d name = (-1, s) ∧ nameMap s d name = none) ∨
    (removeEntryFromDir env s d name).1 = 0 ∧ nameMap s d name ≠ none ∧
      (view (removeEntryFromDir env s d name).2).DirInv d ∧
      nameMap (removeEntryFromDir env s d name).2 d =
        Function.update (nameMap s d) name none := by
  rcases removeEntryFromDir_cases (h.addresses env) h.shape name with
    ⟨hres, hnone⟩ | ⟨b, hb, buf, e, hres, hview, htiles, hlook, hperm, -⟩
  · refine Or.inl ⟨hres, ?_⟩
    rw [nameMap, lookup_eq_none.mpr hnone]
    rfl
  · have hperm' := dirEntries_setData_perm' h.nodup hb hperm
    have hname : e.name = name := (mem_of_lookup hlook).2
    have hnd := (hperm'.map DirEntry.name).nodup_iff.mp h.names
    rw [hres]
    refine Or.inr ⟨rfl, by simp [nameMap, hlook], ?_, ?_⟩
    · rw [hview]
      exact h.setData htiles (List.nodup_cons.mp hnd).2
    · funext m
      unfold nameMap
      rw [hview, lookup_erase hperm' h.names, hname]
      by_cases hm : m = name
      · rw [if_pos hm, hm, Function.update_self]
        rfl
      · rw [if_neg hm, Function.update_of_ne hm]

theorem add (env : Env) (h : (view s).DirInv d) {e : DirEntry} (h0 : e.inode ≠ 0)
    (hlt : e.inode < 2 ^ 32) (hnew : nameMap s d e.name = none) :
    addEntryToDir env s d e.inode e.name e.fileType = (-1, s) ∨
    (addEntryToDir env s d e.inode e.name e.fileType).1 = 0 ∧
      (view (addEntryToDir env s d e.inode e.name e.fileType).2).DirInv d ∧
      nameMap (addEntryToDir env s d e.inode e.name e.fileType).2 d =
        Function.update (nameMap s d) e.name (some e.inode) := by
  have hfresh : e.name ∉ ((view s).dirEntries d).map DirEntry.name := by
    rw [nameMap, Option.map_eq_none_iff] at hnew
    exact lookup_eq_none.mp hnew
  -- one more entry under a new name
  have hmap : ∀ v' : Volume, (v'.dirEntries d).Perm (e :: (view s).dirEntries d) →
      ((v'.dirEntries d).map DirEntry.name).Nodup ∧
      (fun m => (lookup DirEntry.name (v'.dirEntries d) m).map DirEntry.inode) =
        Function.update (nameMap s d) e.name (some e.inode) := by
    intro v' hperm
    refine ⟨(hperm.map DirEntry.name).nodup_iff.mpr (List.nodup_cons.mpr ⟨hfresh, h.names⟩), ?_⟩
    funext m
    rw [lookup_insert hperm h.names hfresh]
    by_cases hm : m = e.name
    · rw [if_pos hm, hm, Function.update_self]
      rfl
    · rw [if_neg hm, Function.update_of_ne hm]
      rfl
  rcases addEntryToDir_dir (h.addresses env) h.shape h0 hlt with
    ⟨-, b, hb, buf, hres, hview, htiles, hperm⟩ | ⟨-, -, hres⟩ | ⟨-, hlen, hres⟩
  · obtain ⟨hnames, hstep⟩ := hmap _ (dirEntries_setData_perm h.nodup hb hperm)
    rw [hres]
    refine Or.inr ⟨rfl, ?_, ?_⟩
    · rw [hview]
      exact h.setData htiles hnames
    · unfold nameMap
      rw [hview]
      exact hstep
  · exact Or.inl hres
  · rw [hres]
    rcases growDir_cases (h.addresses env) h.meta_used ((view s).inode d) e
      ((view s).dirBlocks d).length with ⟨-, hfail⟩ | ⟨b, hleast, -, hcode, hview⟩
    · exact Or.inl hfail
    · have hge := hleast.ge h.meta_used
      have hb : b < 4096 := lt_trans hleast.lt (by decide)
      have hout : b ∉ (view s).dirBlocks d := fun hmem => by
        have hused := h.used b hmem
        rw [hleast.unused] at hused
        cases hused
      have hentries := dirEntries_grow h.contiguous hlen (show b ≠ 0 by omega) (by omega) hout
        h0 hlt
      obtain ⟨hnames, hstep⟩ := hmap _ (hentries ▸ List.perm_append_singleton e _)
      refine Or.inr ⟨hcode, ?_, ?_⟩
      · rw [hview]
        exact h.grow hlen hleast hout h0 hlt hnames
      · unfold nameMap
        rw [hview]
        exact hstep

end Volume.DirInv

/-- One call simulates one step of the map. -/
theorem DirOp.run_step (env : Env) {s : Fs} {d : ℕ} (h : (view s).DirInv d) {op : DirOp}
    (hadm : op.Admissible (nameMap s d)) :
    (view (op.run env s d).2).DirInv d ∧
      nameMap (op.run env s d).2 d = (nameMap s d).step op (op.run env s d).1 ∧
      ((op.run env s d).1 = 0 ∨ op.run env s d = (-1, s)) := by
  have hfail : ∀ {r : ℤ × Fs}, r = (-1, s) → (view r.2).DirInv d ∧
      nameMap r.2 d = (nameMap s d).step op r.1 ∧ (r.1 = 0 ∨ r = (-1, s)) := by
    rintro r rfl
    exact ⟨h, rfl, Or.inr rfl⟩
  cases op with
  | add inode name fileType =>
      obtain ⟨h0, hlt, hnew⟩ := hadm
      rcases h.add env (e := ⟨name, inode, fileType⟩) h0 hlt hnew with
        hres | ⟨hcode, hinv, hmap⟩
      · exact hfail hres
      · refine ⟨hinv, ?_, Or.inl hcode⟩
        rw [NameMap.step, DirOp.run, if_pos hcode]
        exact hmap
  | remove name =>
      rcases h.remove env name with ⟨hres, -⟩ | ⟨hcode, -, hinv, hmap⟩
      · exact hfail hres
      · refine ⟨hinv, ?_, Or.inl hcode⟩
        rw [NameMap.step, DirOp.run, if_pos hcode]
        exact hmap

/-! ## Every sequence of calls -/

theorem DirRun.refines {s s' : Fs} {d : ℕ} {m' : NameMap} (h : (view s).DirInv d)
    (hrun : DirRun d s (nameMap s d) s' m') : (view s').DirInv d ∧ m' = nameMap s' d := by
  induction hrun with
  | nil => exact ⟨h, rfl⟩
  | snoc env op _ hadm ih =>
      obtain ⟨hinv, rfl⟩ := ih
      obtain ⟨hinv', hmap, -⟩ := DirOp.run_step env hinv hadm
      exact ⟨hinv', hmap.symm⟩

/-- After every sequence of calls on a well-formed directory a lookup returns
what the abstract map holds, a removal succeeds exactly on the names in the
map, and a call that does not succeed returns -1 and leaves the state as it is. -/
theorem directory_refines_map {s s' : Fs} {d : ℕ} {m' : NameMap} (h : DirWellFormed s d)
    (hrun : DirRun d s (nameMap s d) s' m') (env : Env) :
    (∀ name, findEntryInDir env s' d name = (m' name).getD 0) ∧
    (∀ name, (removeEntryFromDir env s' d name).1 = 0 ↔ m' name ≠ none) ∧
    ∀ op : DirOp, op.Admissible m' →
      (op.run env s' d).1 = 0 ∨ op.run env s' d = (-1, s') := by
  obtain ⟨hinv, rfl⟩ := hrun.refines h.inv
  refine ⟨hinv.find_eq, fun name => ?_, fun op hadm => (DirOp.run_step env hinv hadm).2.2⟩
  rcases hinv.remove env name with ⟨hres, hnone⟩ | ⟨hcode, hsome, -, -⟩
  · simp [hres, hnone]
  · exact ⟨fun _ => hsome, fun _ => hcode⟩

theorem fresh_dirWellFormed (env : Env) (s : Fs) : DirWellFormed (createExt2 env s) 2 := by
  have hview := view_createExt2 env s
  have hinode : inodeAt (createExt2 env s) 2 = rootInode := congrArg (fun v => v.inode 2) hview
  have hused : blockUsed (createExt2 env s) = fun b => decide (b < 22) :=
    congrArg Volume.blockUsed hview
  have hblock : ∀ i, (inodeAt (createExt2 env s) 2).block i ≠ 0 → i = 0 ∧
      (inodeAt (createExt2 env s) 2).block i = 21 := by
    intro i hi
    rw [hinode, rootInode_block] at hi ⊢
    split at hi
    · next h => exact ⟨h, if_pos h⟩
    · exact absurd rfl hi
  refine ⟨by decide, ?_, ?_, ?_, ?_, ?_, ?_, ?_, ?_, ?_⟩
  · rw [← view_group0, hview, group0_fresh]
    rfl
  · rw [hinode]
    decide +kernel
  · intro i j hij _ h0
    rw [hinode, rootInode_block] at h0 ⊢
    split at h0
    · exact absurd h0 (by decide)
    · rw [if_neg (by omega)]
  · intro i j _ _ hi hij
    rw [(hblock i hi).1, (hblock j (hij ▸ hi)).1]
  · intro i _ hi
    rw [(hblock i hi).2]
    decide
  · intro i _ hi
    rw [(hblock i hi).2, hused]
    rfl
  · intro b hb
    rw [hused]
    exact decide_eq_true (by simp at hb; omega)
  · intro i _ hi
    rw [(hblock i hi).2]
    rw [← view_data _ (le_refl 21), hview]
    exact ⟨_, (dotEntries_spec (by decide) (by decide) (by decide) (by decide)).1⟩
  · rw [hview, fresh_dirEntries]
    decide

/-- On the root of a fresh file system, an added name is found and the dots stay. -/
theorem directory_refines_map_fresh :
    let a : EntryName := ⟨[0x61], by decide⟩
    let s := (addEntryToDir .zero freshFs 2 12 a ext2FtRegFile).2
    findEntryInDir .zero s 2 a = 12 ∧ findEntryInDir .zero s 2 .dot = 2 := by
  intro a s
  have hroot := fresh_dirWellFormed .zero .blank
  have hnew : nameMap freshFs 2 a = none := by
    rw [nameMap, freshFs, view_createExt2, fresh_dirEntries]
    decide
  have hdot : nameMap freshFs 2 .dot = some 2 := by
    rw [nameMap, freshFs, view_createExt2, fresh_dirEntries]
    decide
  have hcode : (addEntryToDir .zero freshFs 2 12 a ext2FtRegFile).1 = 0 := by
    decide +kernel
  have hfind := (directory_refines_map hroot
    (.snoc .zero (.add 12 a ext2FtRegFile) .nil ⟨by decide, by decide, hnew⟩) .zero).1
  refine ⟨(hfind a).trans ?_, (hfind .dot).trans ?_⟩
  · change (NameMap.step (nameMap freshFs 2) (.add 12 a ext2FtRegFile)
      (addEntryToDir .zero freshFs 2 12 a ext2FtRegFile).1 a).getD 0 = 12
    rw [hcode, NameMap.step, if_pos rfl]
    simp
  · change (NameMap.step (nameMap freshFs 2) (.add 12 a ext2FtRegFile)
      (addEntryToDir .zero freshFs 2 12 a ext2FtRegFile).1 .dot).getD 0 = 2
    rw [hcode, NameMap.step, if_pos rfl]
    rw [Function.update_of_ne (by decide), hdot]
    rfl

end RendangOS.Ext2
