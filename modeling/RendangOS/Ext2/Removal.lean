import RendangOS.Ext2.Failure
import RendangOS.Ext2.Counters

/-!
# Removals

The outcomes of `delete` on a directory, and what `is_directory_empty` knows.
It passes over the first two records of the first block, whatever they are. In
a directory that `write` could not give a block these are no dot entries but
the first two children.
-/

namespace RendangOS.Ext2

open Image RecordChain Assoc Bitmap

variable {env : Env} {s : Fs} {r : Request} {e : DirEntry} {n p : ℕ} {b : ℕ}

/-! ## The outcomes of `delete` on a directory -/

theorem Settled.initialized_ne (h : Settled (view s)) : ¬ s.initialized = false := by
  have hinit : s.initialized = true := h.sound.initialized
  simp [hinit]

/-- What `find_entry_in_dir` finds is entered. -/
theorem Settled.found_entry (h : Settled (view s)) {name : EntryName}
    (hd : ((view s).inode p).isDir = true) (hf : findEntryInDir env s p name ≠ 0) :
    ∃ e ∈ (view s).dirEntries p, e.name = name ∧ findEntryInDir env s p name = e.inode := by
  have ha : Addresses env s p p := addresses_inTable_slot h.sound.tables (isSlot_of_isDir hd)
  rw [findEntryInDir_eq ha (h.sound.shape hd), if_pos hd, inodeOf] at hf ⊢
  cases hl : lookup DirEntry.name ((view s).dirEntries p) name with
  | none =>
      rw [hl] at hf
      exact absurd rfl hf
  | some e =>
      obtain ⟨hmem, hname⟩ := mem_of_lookup hl
      exact ⟨e, hmem, hname, rfl⟩

theorem Settled.target_slot (h : Settled (view s)) (hd : ((view s).inode p).isDir = true)
    (he : e ∈ (view s).dirEntries p) : IsSlot e.inode :=
  (h.sound.dirs p hd).targets e he

theorem Settled.readInode (env : Env) (h : Settled (view s)) (hn : IsSlot n) :
    Ext2.readInode env s n = some (inodeAt s n) :=
  (addresses_inTable_slot h.sound.tables hn).readInode

/-- What becomes of a request that names entry `e`. -/
inductive Deletion (env : Env) (s : Fs) (r : Request) (e : DirEntry) : ℤ × Fs → Prop
  | kind : (inodeAt s e.inode).isDir ≠ r.is_directory → Deletion env s r e (1, s)
  | full : (inodeAt s e.inode).isDir = true → r.is_directory = true →
      isDirectoryEmpty env s e.inode = false → Deletion env s r e (2, s)
  | removed {b : ℕ} {buf : Block} {s' : Fs} : Removed env s r e b buf →
      view s' = ((view s).setData b buf).dealloc e.inode → Deletion env s r e (0, s')

/-- The outcomes of `delete` on a directory. -/
theorem Settled.delete_outcome (env : Env) (h : Settled (view s)) (hp : AllocatedDir s r.parent) :
    ((r.name_null = true ∨ r.name.len = 0) ∧ Ext2.delete env s r = (-1, s)) ∨
    ¬ (r.name_null = true ∨ r.name.len = 0) ∧
      ((findEntryInDir env s r.parent r.name = 0 ∧ Ext2.delete env s r = (1, s)) ∨
        ∃ e ∈ (view s).dirEntries r.parent, e.name = r.name ∧
          findEntryInDir env s r.parent r.name = e.inode ∧
          Deletion env s r e (Ext2.delete env s r)) := by
  have hd : ((view s).inode r.parent).isDir = true := hp.2
  have hslot : IsSlot r.parent := isSlot_of_isDir hd
  have ha : Addresses env s r.parent r.parent := addresses_inTable_slot h.sound.tables hslot
  have hcases := delete_cases env h.sound (fun n hn => hn.inTable) (Or.inr hslot.inTable) (r := r)
  have hdelete : Ext2.delete env s r = _ := Ext2.delete.eq_1 env s r
  rw [if_neg h.initialized_ne, if_neg hslot.ne_zero] at hdelete
  by_cases hname : r.name_null = true ∨ r.name.len = 0
  · rw [if_pos hname] at hdelete
    exact Or.inl ⟨hname, hdelete⟩
  · rw [if_neg hname] at hdelete
    refine Or.inr ⟨hname, ?_⟩
    by_cases hf : findEntryInDir env s r.parent r.name = 0
    · simp only [hf, if_true] at hdelete
      exact Or.inl ⟨hf, hdelete⟩
    · obtain ⟨e, he, hen, hfe⟩ := h.found_entry hd hf
      have ht := h.target_slot hd he
      refine Or.inr ⟨e, he, hen, hfe, ?_⟩
      simp only [hfe, h.readInode env ht] at hdelete
      rw [if_neg ht.ne_zero] at hdelete
      by_cases h1 : r.is_directory = true ∧ (inodeAt s e.inode).isDir = false
      · rw [hdelete, if_pos h1]
        exact .kind (by simp [h1.1, h1.2])
      · rw [if_neg h1] at hdelete
        by_cases h2 : r.is_directory = true ∧ isDirectoryEmpty env s e.inode = false
        · rw [hdelete, if_pos h2]
          exact .full (by simpa [h2.1] using h1) h2.1 h2.2
        · rw [if_neg h2] at hdelete
          by_cases h3 : r.is_directory = false ∧ (inodeAt s e.inode).isDir = true
          · rw [hdelete, if_pos h3]
            exact .kind (by simp [h3.1, h3.2])
          · rw [if_neg h3] at hdelete
            -- the entry is there, so its removal succeeds
            have hcode : (Ext2.delete env s r).1 = 0 := by
              rw [hdelete]
              rcases removeEntryFromDir_cases ha (h.sound.shape hd) r.name with
                ⟨-, hnone⟩ | ⟨b, -, buf, e', hres, -⟩
              · exact absurd (hen ▸ List.mem_map_of_mem he) hnone
              · rw [hres, if_neg (not_not.mpr rfl)]
            rcases hcases with ⟨code, hne, hres⟩ | ⟨e', b, buf, hrem, -, hview⟩
            · rw [hres] at hcode
              exact absurd hcode hne
            · have hlook := hrem.found
              rw [hslot.slotOf, ← hen, lookup_of_mem (h.names _ hd) he, Option.some.injEq] at hlook
              subst hlook
              rw [← Prod.mk.eta (p := Ext2.delete env s r), hcode]
              exact .removed hrem hview

/-- The blocks that the removal of an entry gives back are those of its inode. -/
theorem Settled.blockUsed_removed {s' : Fs} {q : ℕ} {buf : Block} (h : Settled (view s))
    (hb : b ∈ (view s).dirBlocks q) (hn : IsSlot n)
    (hview : view s' = ((view s).setData b buf).dealloc n) (c : ℕ) :
    blockUsed s' c = (blockUsed s c && !decide (c ∈ blockRefs s n)) := by
  have hdealloc := ((view s).setData b buf).blockUsed_dealloc n c
  rw [← hview, hn.slotOf] at hdealloc
  refine hdealloc.trans ?_
  congr 2
  apply decide_eq_decide.mpr
  have hptr : ∀ j, ((view s).setData b buf).ptr n j = (view s).ptr n j :=
    ptr_setData h.sound hb n
  constructor
  · rintro ⟨h0, hmem⟩
    obtain ⟨j, hj⟩ := (EXT2Inode.mem_pointers h0).mp hmem
    exact (mem_blockRefs h).mpr ⟨j, (hptr j).symm.trans hj, h0⟩
  · intro hc
    obtain ⟨j, hj, h0⟩ := (mem_blockRefs h).mp hc
    exact ⟨h0, (EXT2Inode.mem_pointers h0).mpr ⟨j, (hptr j).trans hj⟩⟩

/-! ## `is_directory_empty` -/

theorem emptyScan_iff {buf : Frame} : ∀ {rs : List (Rec DirEntry)} {fuel offset : ℕ},
    Tiles buf offset rs → 512 ≤ offset + fuel → (emptyScan buf fuel offset = true ↔ items rs = [])
  | [], 0, _, _, _ => by simp [emptyScan]
  | [], _ + 1, offset, h, _ => by
      have hoff : offset = 512 := h
      simp [emptyScan, hoff]
  | r :: rs, 0, offset, h, hfuel => by
      have := h.head
      omega
  | r :: rs, fuel + 1, offset, h, hfuel => by
      obtain ⟨h8, hneed, hle⟩ := h.head
      obtain ⟨hr, _, _, htail⟩ := h
      have hlen : entRecLen buf offset = r.len := congrArg Rec.len hr
      have hitem : r.item = none ↔ entInode buf offset = 0 := by
        rw [← hr, recAt]
        dsimp only
        split <;> simp_all
      rw [emptyScan, blockSize, if_pos (by omega), hlen, if_neg (by omega), items_cons]
      by_cases hi : entInode buf offset = 0
      · rw [if_neg (not_not.mpr hi), hitem.mpr hi, Option.toList_none, List.nil_append]
        exact emptyScan_iff htail (by omega)
      · rw [if_pos hi]
        obtain ⟨a, ha⟩ := Option.ne_none_iff_exists'.mp (mt hitem.mp hi)
        simp [ha]

/-- The scan of the first block starts behind its second record. Where the first
record fills the block, that is read from the memory behind the buffer. -/
theorem emptyScan_firstBlock (env : Env) (s : Fs) {buf : Block}
    (h : Tiles buf 0 (blockRecs buf)) (hjunk : (blockRecs buf).length = 1 →
      entRecLen (frame env s buf) 512 ≠ 0) :
    emptyScan (frame env s buf) blockSize (getDirFirstChildOffset (frame env s buf)) = true ↔
      items ((blockRecs buf).drop 2) = [] := by
  have ht : Tiles (frame env s buf) 0 (blockRecs buf) := tiles_frame h
  generalize blockRecs buf = rs at ht hjunk
  match rs with
  | [] => cases ht
  | [r] =>
      obtain ⟨hr, -, -, hend⟩ := ht
      have hlen : entRecLen (frame env s buf) 0 = r.len := congrArg Rec.len hr
      have h512 : r.len = 512 := (Nat.zero_add _).symm.trans hend
      have hoff : getDirFirstChildOffset (frame env s buf) =
          512 + entRecLen (frame env s buf) 512 := by
        unfold getDirFirstChildOffset
        simp only [hlen, h512]
        rw [if_neg (by decide), if_neg (hjunk rfl)]
      rw [hoff, blockSize, emptyScan, blockSize, if_neg (by omega)]
      simp
  | r :: r' :: rs =>
      obtain ⟨h8, hneed, -⟩ := ht.head
      obtain ⟨hr, -, -, ht⟩ := ht
      obtain ⟨h8', hneed', -⟩ := ht.head
      obtain ⟨hr', -, -, ht⟩ := ht
      rw [Nat.zero_add] at hr' ht
      have hlen : entRecLen (frame env s buf) 0 = r.len := congrArg Rec.len hr
      have hlen' : entRecLen (frame env s buf) r.len = r'.len := congrArg Rec.len hr'
      have hoff : getDirFirstChildOffset (frame env s buf) = r.len + r'.len := by
        unfold getDirFirstChildOffset
        simp only [hlen, hlen']
        rw [if_neg (by omega), if_neg (by omega)]
      rw [hoff]
      exact emptyScan_iff ht (by simp only [blockSize]; omega)

/-- The live records of a directory behind the first two of its first block. -/
def behindDots (s : Fs) (n : ℕ) : List DirEntry :=
  match (view s).dirBlocks n with
  | [] => []
  | b :: bs =>
      items ((blockRecs ((view s).data b)).drop 2) ++
        bs.flatMap fun c => blockEntries ((view s).data c)

/-- Only the first block of the list is treated apart. -/
theorem all_zipIdx {f : ℕ × ℕ → Bool} {g : ℕ → Bool} (bs : List ℕ) :
    ∀ k, (∀ c ∈ bs, ∀ i, k ≤ i → f (c, i) = g c) → (bs.zipIdx k).all f = bs.all g := by
  induction bs with
  | nil => exact fun _ _ => rfl
  | cons c bs ih =>
      intro k h
      rw [List.zipIdx_cons, List.all_cons, List.all_cons, h c List.mem_cons_self k le_rfl,
        ih (k + 1) fun d hd i hi => h d (List.mem_cons_of_mem c hd) i (by omega)]

theorem Settled.isDirectoryEmpty_iff (env : Env) (h : Settled (view s))
    (hd : ((view s).inode n).isDir = true) :
    isDirectoryEmpty env s n = true ↔
      match (view s).dirBlocks n with
      | [] => True
      | b :: bs =>
          emptyScan (frame env s ((view s).data b)) blockSize
            (getDirFirstChildOffset (frame env s ((view s).data b))) = true ∧
          (bs.flatMap fun c => blockEntries ((view s).data c)) = [] := by
  have hshape := h.sound.shape hd
  have hread : ∀ c ∈ (view s).dirBlocks n, readBlocks s c = (view s).data c :=
    fun c hc => readBlocks_dir hshape hc
  have hscan : ∀ c ∈ (view s).dirBlocks n,
      emptyScan (frame env s (readBlocks s c)) blockSize 0 = true ↔
        blockEntries ((view s).data c) = [] := fun c hc => by
    rw [hread c hc]
    exact emptyScan_iff (tiles_frame (hshape.tiled c hc)) (by simp only [blockSize]; omega)
  unfold isDirectoryEmpty
  rw [h.readInode env (isSlot_of_isDir hd)]
  dsimp only
  rw [if_neg (by change ¬ ((view s).inode n).isDir = false; simp [hd])]
  change List.all (((view s).dirBlocks n).zipIdx) _ = true ↔ _
  generalize (view s).dirBlocks n = bs at hread hscan
  match bs with
  | [] => simp
  | b :: bs =>
      have hrest := all_zipIdx (f := fun x => emptyScan (frame env s (readBlocks s x.1)) blockSize
        (if x.2 = 0 then getDirFirstChildOffset (frame env s (readBlocks s x.1)) else 0))
        (g := fun c => emptyScan (frame env s (readBlocks s c)) blockSize 0) bs 1
        (fun c _ i hi => by dsimp only; rw [if_neg (by omega)])
      rw [List.zipIdx_cons, List.all_cons, Bool.and_eq_true, Nat.zero_add]
      dsimp only
      rw [if_pos rfl, hread b List.mem_cons_self, hrest, List.all_eq_true, List.flatMap_eq_nil_iff]
      constructor
      · rintro ⟨hfirst, hall⟩
        exact ⟨hfirst, fun c hc => (hscan c (List.mem_cons_of_mem b hc)).mp (hall c hc)⟩
      · rintro ⟨hfirst, hall⟩
        exact ⟨hfirst, fun c hc => (hscan c (List.mem_cons_of_mem b hc)).mpr (hall c hc)⟩

/-- A live record behind the first two is seen, whatever lies in memory. -/
theorem Settled.isDirectoryEmpty_of_behind (env : Env) (h : Settled (view s))
    (hd : ((view s).inode n).isDir = true) (hne : behindDots s n ≠ []) :
    isDirectoryEmpty env s n = false := by
  apply Bool.eq_false_of_not_eq_true
  rw [h.isDirectoryEmpty_iff env hd]
  unfold behindDots at hne
  have htiled := (h.sound.shape hd).tiled
  generalize (view s).dirBlocks n = bs at hne htiled
  match bs with
  | [] => exact absurd rfl hne
  | b :: bs =>
      rintro ⟨hfirst, hrest⟩
      dsimp only at hne
      rw [hrest, List.append_nil] at hne
      refine hne ((emptyScan_firstBlock env s (htiled b List.mem_cons_self) ?_).mp hfirst)
      intro hone
      rw [List.drop_of_length_le (by omega)] at hne
      exact absurd rfl hne

/-- A machine with ones behind its buffers. -/
def Env.ones : Env := ⟨fun _ => BitVec.allOnes 524288, fun _ => 0, fun _ => 0⟩

theorem entRecLen_ones (s : Fs) (buf : Block) : entRecLen (frame .ones s buf) 512 ≠ 0 := by
  intro h0
  have hbit : ((frame .ones s buf).extractLsb' (8 * (512 + 4)) 16).getLsbD 0 = true := by
    rw [BitVec.getLsbD_extractLsb', frame, BitVec.getLsbD_append, if_neg (by decide)]
    simp [Env.ones]
  rw [BitVec.eq_of_toNat_eq (h0.trans (BitVec.toNat_zero ..).symm)] at hbit
  cases hbit

/-- And nothing else is sure to be seen. -/
theorem Settled.isDirectoryEmpty_ones (h : Settled (view s))
    (hd : ((view s).inode n).isDir = true) (hnil : behindDots s n = []) :
    isDirectoryEmpty .ones s n = true := by
  rw [h.isDirectoryEmpty_iff .ones hd]
  unfold behindDots at hnil
  have htiled := (h.sound.shape hd).tiled
  generalize (view s).dirBlocks n = bs at hnil htiled
  match bs with
  | [] => trivial
  | b :: bs =>
      obtain ⟨hfirst, hrest⟩ := List.append_eq_nil_iff.mp hnil
      refine ⟨?_, hrest⟩
      rw [emptyScan_firstBlock .ones s (htiled b List.mem_cons_self) fun _ => entRecLen_ones s _]
      exact hfirst

/-! ## Only empty directories are removed -/

/-- Inode `n` is a directory with an entry other than `"."` and `".."`. -/
def HasChild (s : Fs) (n : ℕ) : Prop :=
  (inodeAt s n).isDir = true ∧ ∃ e ∈ (view s).dirEntries n, e.name.Proper

/-- What `rmdir` promises about the directory `n` that the request names. -/
def RemovesOnlyEmpty (env : Env) (s : Fs) (r : Request) (n : ℕ) : Prop :=
  ((delete env s r).1 = 0 → ¬ HasChild s n) ∧ (HasChild s n → delete env s r = (2, s))

/-- **Only empty directories are removed** exactly when a directory with
children has a live record behind the first two of its first block and is named
by at least one byte. -/
theorem only_empty_removed_iff (h : Reachable ProperCall s) (hp : AllocatedDir s r.parent)
    (he : e ∈ (view s).dirEntries r.parent) (hname : r.name = e.name)
    (hnull : r.name_null = false) (hdir : r.is_directory = true) :
    (∀ env, RemovesOnlyEmpty env s r e.inode) ↔
      (HasChild s e.inode → r.name.len ≠ 0 ∧ behindDots s e.inode ≠ []) := by
  have hinv : Settled (view s) := reachable_settled (h.mono fun s c hc => hc.onDirectory)
  have hd : ((view s).inode r.parent).isDir = true := hp.2
  have hslot := hinv.target_slot hd he
  have hfind : ∀ env, findEntryInDir env s r.parent r.name = e.inode := by
    intro env
    rw [hname]
    exact hinv.find_entry env hd he
  -- the outcome, once the name is given and the directory has a child
  have hout : ∀ env, r.name.len ≠ 0 → (inodeAt s e.inode).isDir = true →
      (isDirectoryEmpty env s e.inode = false ∧ delete env s r = (2, s)) ∨
      (isDirectoryEmpty env s e.inode = true ∧ (delete env s r).1 = 0) := by
    intro env hlen hdt
    rcases hinv.delete_outcome env hp with
      ⟨hno, -⟩ | ⟨-, ⟨h0, -⟩ | ⟨e', he', hname', -, hres⟩⟩
    · rw [hnull] at hno
      exact absurd hno (by simp [hlen])
    · rw [hfind env] at h0
      exact absurd h0 hslot.ne_zero
    · have hee : e' = e :=
        List.inj_on_of_nodup_map (hinv.names _ hd) he' he (hname'.trans hname)
      subst hee
      generalize delete env s r = res at hres ⊢
      cases hres with
      | kind hk => exact absurd (hdt.trans hdir.symm) hk
      | full _ _ hempty => exact Or.inl ⟨hempty, rfl⟩
      | removed hrem _ => exact Or.inr ⟨hrem.empty hdir, rfl⟩
  constructor
  · intro hall hchild
    have hlen : r.name.len ≠ 0 := by
      intro h0
      rcases hinv.delete_outcome .zero hp with ⟨-, hres⟩ | ⟨hno, -⟩
      · have htwo := (hall .zero).2 hchild
        rw [hres] at htwo
        cases htwo
      · exact hno (Or.inr h0)
    refine ⟨hlen, fun hnil => ?_⟩
    rcases hout .ones hlen hchild.1 with ⟨hempty, -⟩ | ⟨-, hcode⟩
    · rw [hinv.isDirectoryEmpty_ones hchild.1 hnil] at hempty
      cases hempty
    · exact (hall .ones).1 hcode hchild
  · intro hcond env
    have htwo : HasChild s e.inode → delete env s r = (2, s) := by
      intro hchild
      obtain ⟨hlen, hbehind⟩ := hcond hchild
      rcases hout env hlen hchild.1 with ⟨-, hres⟩ | ⟨hempty, -⟩
      · exact hres
      · rw [hinv.isDirectoryEmpty_of_behind env hchild.1 hbehind] at hempty
        cases hempty
    refine ⟨fun hcode hchild => ?_, htwo⟩
    rw [htwo hchild] at hcode
    cases hcode

/-- A directory with one file in it. -/
def filledFolder : List Call :=
  [.write (.folder rootInodeNo (.letter 0x64)), .write (.file 12 (.letter 0x66) [])]

theorem Settled.hasChild (env : Env) (h : Settled (view s)) {name : EntryName}
    (hd : (inodeAt s n).isDir = true) (hn : name.Proper)
    (hf : findEntryInDir env s n name ≠ 0) : HasChild s n := by
  obtain ⟨e, he, hname, -⟩ := h.found_entry hd hf
  exact ⟨hd, e, he, hname ▸ hn⟩

theorem only_empty_removed_filled :
    delete .zero (runCalls filledFolder freshFs) (.folder 2 (.letter 0x64)) =
      (2, runCalls filledFolder freshFs) := by
  have hrun : allProper filledFolder freshFs = true ∧
      AllocatedDir (runCalls filledFolder freshFs) 2 ∧
      findEntryInDir .zero (runCalls filledFolder freshFs) 2 (.letter 0x64) = 12 ∧
      (inodeAt (runCalls filledFolder freshFs) 12).isDir = true ∧
      findEntryInDir .zero (runCalls filledFolder freshFs) 12 (.letter 0x66) ≠ 0 ∧
      behindDots (runCalls filledFolder freshFs) 12 ≠ [] := by
    decide +kernel
  obtain ⟨hproper, hroot, hfind, hd, hchild, hbehind⟩ := hrun
  have hreach := (Reachable.fresh ProperCall).runCalls hproper
  generalize runCalls filledFolder freshFs = s at *
  have hinv : Settled (view s) := reachable_settled (hreach.mono fun s c hc => hc.onDirectory)
  obtain ⟨e, he, hname, hinode⟩ := hinv.found_entry hroot.2
    (show findEntryInDir .zero s 2 (.letter 0x64) ≠ 0 by rw [hfind]; decide)
  rw [hfind] at hinode
  have hiff := only_empty_removed_iff (r := .folder 2 (.letter 0x64)) hreach hroot he hname.symm
    rfl rfl
  rw [← hinode] at hiff
  exact (hiff.mpr (fun _ => ⟨by decide, hbehind⟩) .zero).2
    (hinv.hasChild .zero hd (by decide) hchild)

/-- A request to write `blocks` blocks of zeros to a file of the root directory. -/
def Request.bulk (name : EntryName) (blocks : ℕ) : Request :=
  { Request.file rootInodeNo name [] with buffer_size := BitVec.ofNat 32 (blockSize * blocks) }

/-- Two files that fill the disk, a directory that is left without a block, the
release of the first file, and two files for that directory. -/
def nakedFolder : List Call :=
  [.write (.bulk (.letter 0x61) 140), .write (.bulk (.letter 0x62) 92),
    .write (.folder rootInodeNo (.letter 0x64)), .delete (.bulk (.letter 0x61) 140),
    .write (.file 14 (.letter 0x66) []), .write (.file 14 (.letter 0x67) [])]

/-- The first two files written to a directory without a block take the places
of its dot entries, and the directory is removed with them. -/
theorem rmdir_drops_children :
    Reachable ProperCall (runCalls nakedFolder freshFs) ∧
      AllocatedDir (runCalls nakedFolder freshFs) 2 ∧
      (∃ e ∈ (view (runCalls nakedFolder freshFs)).dirEntries 2,
        e.name = .letter 0x64 ∧ e.inode = 14) ∧
      HasChild (runCalls nakedFolder freshFs) 14 ∧
      (delete .zero (runCalls nakedFolder freshFs) (.folder 2 (.letter 0x64))).1 = 0 := by
  have hrun : allProper nakedFolder freshFs = true ∧
      AllocatedDir (runCalls nakedFolder freshFs) 2 ∧
      findEntryInDir .zero (runCalls nakedFolder freshFs) 2 (.letter 0x64) = 14 ∧
      (inodeAt (runCalls nakedFolder freshFs) 14).isDir = true ∧
      findEntryInDir .zero (runCalls nakedFolder freshFs) 14 (.letter 0x66) ≠ 0 ∧
      (delete .zero (runCalls nakedFolder freshFs) (.folder 2 (.letter 0x64))).1 = 0 := by
    decide +kernel
  obtain ⟨hproper, hroot, hfind, hd, hchild, hcode⟩ := hrun
  have hreach := (Reachable.fresh ProperCall).runCalls hproper
  generalize runCalls nakedFolder freshFs = s at *
  have hinv : Settled (view s) := reachable_settled (hreach.mono fun s c hc => hc.onDirectory)
  obtain ⟨e, he, hname, hinode⟩ := hinv.found_entry hroot.2
    (show findEntryInDir .zero s 2 (.letter 0x64) ≠ 0 by rw [hfind]; decide)
  refine ⟨hreach, hroot, ⟨e, he, hname, hinode.symm.trans hfind⟩, ?_, hcode⟩
  exact hinv.hasChild .zero hd (by decide) hchild

end RendangOS.Ext2
