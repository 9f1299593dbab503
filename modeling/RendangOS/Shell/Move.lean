import RendangOS.Shell.Copy
import RendangOS.Shell.DirBuffer

/-!
# `mv`

`cmd_mv` writes a copy of the file, if need be in the place of the file that has
the name, and deletes the source whatever it is by then: the copy, when the
target was the source itself, or an inode that source and target share.
-/

namespace RendangOS.Shell

open Ext2 Image RecordChain Assoc

/-! ## `cmd_mv` -/

/-- The inode of the directory `name` in the current directory, or 0. -/
def isDirectory (env : Env) (sh : Statics) (s : Fs) (name : EntryName) : ℕ × Statics :=
  let ret := stat env s name false sh.dir
  if ret.1 = 0 ∧ (ret.2.map Prod.snd).getD false = true then
    let ret := readDirectory env s (dirRequest sh.dir_buffer sh.current_dir_inode)
    let sh := { sh with dir_buffer := ret.2 }
    if ret.1 = 0 then
      let hit := (entriesFrom sh.dir_buffer 0).find? fun e =>
        decide (e.name = name ∧ e.fileType = ext2FtDir)
      ((hit.map DirEntry.inode).getD 0, sh)
    else (0, sh)
  else (0, sh)

/-- The message of `cmd_mv`. -/
inductive MvReport where
  /-- `"mv: Missing operand"` -/
  | missingOperand
  /-- `"mv: Cannot find source: "` -/
  | noSource
  /-- `"mv: File too large"` -/
  | tooLarge
  /-- `"mv: Cannot read source: "` -/
  | unreadable
  /-- `"mv: Cannot write destination (error "`, with the code -/
  | notWritten (ret : ℤ)
  /-- `"Moved: "` -/
  | moved
  /-- `strcpy` has written behind `target_name[128]`. -/
  | overrun
deriving DecidableEq

/-- `target_parent` and `target_name`. -/
def moveTarget (env : Env) (sh : Statics) (s : Fs) (src dst : EntryName) :
    BitVec 32 × EntryName :=
  let dstDirInode := (isDirectory env sh s dst).1
  if dstDirInode ≠ 0 then (BitVec.ofNat 32 dstDirInode, src) else (sh.current_dir_inode, dst)

/-- The request that deletes the source. -/
def sourceRequest (sh : Statics) (src : EntryName) : Request :=
  fileRequest (fun _ => 0) src sh.current_dir_inode 0

def cmdMv (env : Env) (sh : Statics) (s : Fs) (src dst : EntryName) : MvReport × Statics × Fs :=
  if src.len = 0 ∨ dst.len = 0 then (.missingOperand, sh, s)
  else
    let target := moveTarget env sh s src dst
    let sh := (isDirectory env sh s dst).2
    if 128 ≤ target.2.len then (.overrun, sh, s)
    else
      match fetch env sh s src with
      | .noSource => (.noSource, sh, s)
      | .tooLarge => (.tooLarge, sh, s)
      | .unreadable buf => (.unreadable, { sh with file_buffer := buf }, s)
      | .fetched size buf =>
          let sh := { sh with file_buffer := buf }
          let ret := writeOver env s (fileRequest buf target.2 target.1 size)
          if ret.1 ≠ 0 then (.notWritten ret.1, sh, ret.2)
          else (.moved, sh, (delete env ret.2 (sourceRequest sh src)).2)

/-! ## A file that is kept -/

/-- `name` in directory `q` is a live file with the content that `src` had in
directory `p`. -/
def KeptAt (s : Fs) (p : ℕ) (src : EntryName) (s' : Fs) (q : ℕ) (name : EntryName) : Prop :=
  (∃ n, LiveFile s' q name n) ∧ SameFile s p src s' q name

/-- `name` is the entry of inode `d` in directory `p`, and that is a directory. -/
def DirAt (s : Fs) (p : ℕ) (name : EntryName) (d : ℕ) : Prop :=
  (∃ e ∈ (view s).dirEntries p, e.name = name ∧ e.inode = d) ∧ (inodeAt s d).isDir = true

/-- Where a move to `dst` should lead: into the directory of that name, or to the
name itself. -/
inductive Destination (s : Fs) (p : ℕ) (src dst : EntryName) : ℕ → EntryName → Prop
  | into {d : ℕ} : DirAt s p dst d → Destination s p src dst d src
  | rename : (∀ d, ¬ DirAt s p dst d) → Destination s p src dst p dst

/-- After `mv` the file is there under its old name or at its destination. After
an overrun nothing is known. -/
def FileKept (env : Env) (sh : Statics) (s : Fs) (src dst : EntryName) : Prop :=
  let res := cmdMv env sh s src dst
  res.1 ≠ .overrun ∧
    (KeptAt s sh.dir src res.2.2 sh.dir src ∨
      ∃ q name, Destination s sh.dir src dst q name ∧ KeptAt s sh.dir src res.2.2 q name)

/-! ## When it is -/

/-- The request for the copy of file `a` at a target, whatever is in its buffer. -/
def moveRequest (sh : Statics) (s : Fs) (a : ℕ) (target : BitVec 32 × EntryName) : Request :=
  fileRequest sh.file_buffer target.2 target.1 (inodeAt s a).i_size

/-- The target `c` is another file, and if it can be removed and written again,
this stores the whole content of `a`. Where both names lead to one inode, that
inode is given back with the target. The content must then go to a different
inode, or else to the same one by a write that fails to enter it. -/
def TargetSafe (s : Fs) (a c : ℕ) (w : Request) : Prop :=
  (c ≠ a → Replaceable s w c →
    Reproduced s a w (s.group0.bg_free_blocks_count.toNat + (inodeAt s c).i_blocks.toNat)) ∧
  (c = a →
    Reproduced s a w (s.group0.bg_free_blocks_count.toNat + (inodeAt s a).i_blocks.toNat) ∧
      s.group0.bg_free_inodes_count + 1 ≠ 0 ∧ (Replaceable s w a ↔ ¬ FullBelow s a))

/-- `is_directory` does not answer with an inode that is not that of `dst`. -/
def Resolved (env : Env) (sh : Statics) (s : Fs) (dst : EntryName) : Prop :=
  (isDirectory env sh s dst).1 ≠ 0 → DirAt s sh.dir dst (isDirectory env sh s dst).1

/-- The target of `w` is not the source, and takes the whole file. -/
def TargetTakes (env : Env) (s : Fs) (p : ℕ) (src : EntryName) (a : ℕ) (w : Request) : Prop :=
  ¬ (w.parent = p ∧ w.name = src) ∧ FreshSafe env s a w ∧
    ∀ c, FileAt s w.parent w.name c → TargetSafe s a c w

def MoveSafe (env : Env) (sh : Statics) (s : Fs) (src dst : EntryName) (a : ℕ) : Prop :=
  src.len ≠ 0 → dst.len ≠ 0 →
    Resolved env sh s dst ∧ (moveTarget env sh s src dst).2.len < 128 ∧
      TargetTakes env s sh.dir src a (moveRequest sh s a (moveTarget env sh s src dst))

variable {env : Env} {sh : Statics} {s s' s₁ s₂ : Fs} {src dst name : EntryName} {p q a : ℕ}
  {w k : Request} {e c d : DirEntry} {b : ℕ} {buf : Block} {ret : ℤ × Fs}

/-! ## Files after the move -/

theorem not_keptAt_gone (hs' : Settled (view s')) (hd' : ((view s').inode q).isDir = true)
    (hf : findEntryInDir env s' q name = 0) : ¬ KeptAt s p src s' q name := by
  rintro ⟨⟨n, ⟨c, hc, hname, -⟩, -⟩, -⟩
  exact absent_of_find hs' hd' hf c hc hname

theorem keptAt_iff (he : FileEntry s p e) (hc : FileEntry s' q c) :
    KeptAt s p e.name s' q c.name ↔
      inodeUsed s' c.inode = true ∧ SameContent s e.inode s' c.inode := by
  have hsame := he.sameFile_iff hc
  constructor
  · rintro ⟨⟨n, ⟨c', hc', hname, rfl⟩, hused, -⟩, hfile⟩
    rw [List.inj_on_of_nodup_map (hc.settled.names _ hc.is_dir) hc' hc.mem hname] at hused
    exact ⟨hused, hsame.mp hfile⟩
  · rintro ⟨hused, hcontent⟩
    exact ⟨⟨c.inode, ⟨c, hc.mem, rfl, rfl⟩, hused, hc.file⟩, hsame.mpr hcontent⟩

/-- The other files are there after one has been deleted. -/
theorem fileEntry_removed (hrem : FileRemoved env s₁ k d b buf s') (hk' : Packed (view s'))
    (hc : FileEntry s₁ q c) (hq : AllocatedDir s₁ q) (hne : q = k.parent → c ≠ d) :
    FileEntry s' q c := by
  exact ⟨hrem.after, hk', (fileRemoved_dir hrem hq).2, fileRemoved_mem hrem hq hc.mem hne,
    fileRemoved_file hrem hc.file, hc.name⟩

/-- One of them is kept, unless it was the same inode. -/
theorem keptAt_removed (he : FileEntry s p e) (hrem : FileRemoved env s₁ k d b buf s')
    (hk' : Packed (view s')) (hc : FileEntry s₁ q c) (hq : AllocatedDir s₁ q)
    (hne : q = k.parent → c ≠ d) (hused : inodeUsed s₁ c.inode = true) :
    KeptAt s p e.name s' q c.name ↔ c.inode ≠ d.inode ∧ SameContent s e.inode s₁ c.inode := by
  rw [keptAt_iff he (fileEntry_removed hrem hk' hc hq hne), hrem.inodeUsed_eq]
  by_cases hcd : c.inode = d.inode
  · rw [hcd, Function.update_self]
    exact iff_of_false (fun h => by cases h.1) (fun h => h.1 rfl)
  · have hcp : c.inode ≠ k.parent := by
      intro heq
      have hfile := hc.file
      rw [heq, hrem.parent.2] at hfile
      cases hfile
    have hsame : SameContent s₁ c.inode s' c.inode :=
      (fileRemoved_untouched hrem hcd hcp).sameContent hc.settled hc.packed hrem.after
    rw [Function.update_of_ne hcd]
    exact ⟨fun h => ⟨hcd, h.2.trans hsame.symm⟩, fun h => ⟨hused, h.2.trans hsame⟩⟩

/-! ## The end of the move -/

/-- The two places where the file can be. -/
def MoveKept (s : Fs) (p : ℕ) (src : EntryName) (s' : Fs) (q : ℕ) (name : EntryName) : Prop :=
  KeptAt s p src s' p src ∨ KeptAt s p src s' q name

/-- A move of the file `e` of directory `p`, as far as the request `w` for its copy;
`k` is the request that deletes it. -/
structure Move (s : Fs) (p : ℕ) (e : DirEntry) (w k : Request) : Prop where
  dir : AllocatedDir s p
  target : AllocatedDir s w.parent
  source : FileEntry s p e
  used : inodeUsed s e.inode = true
  carries : Carries s e.inode w
  name : w.name.len ≠ 0
  source_parent : k.parent = p
  source_name : k.name = e.name

namespace Move

variable {n : ℕ} {P : List ℕ} {x : EXT2Inode} {v₃ : Volume}

theorem settled (h : Move s p e w k) : Settled (view s) := h.source.settled

/-- Nothing has been done. -/
theorem unchanged (h : Move s p e w k) : MoveKept s p e.name s w.parent w.name :=
  Or.inl ((keptAt_iff h.source h.source).mpr ⟨h.used, .refl _ _⟩)

/-- A new target is not the source. -/
theorem ne_of_absent (h : Move s p e w k) (hf : findEntryInDir env s w.parent w.name = 0) :
    ¬ (w.parent = p ∧ w.name = e.name) := by
  rintro ⟨rfl, hname⟩
  rw [hname] at hf
  exact find_present h.settled h.dir.2 h.source.mem env hf

theorem no_file_of_absent (h : Move s p e w k) (hf : findEntryInDir env s w.parent w.name = 0) :
    ∀ c, ¬ FileAt s w.parent w.name c := by
  rintro c ⟨⟨d, hd, hname, -⟩, -⟩
  exact absent_of_find h.settled h.target.2 hf d hd hname

/-- The write is refused. -/
theorem refused (h : Move s p e w k) (hf : findEntryInDir env s w.parent w.name = 0)
    (hacc : ¬ Accepted env s w) (hcode : (write env s w).1 ≠ 0) :
    MoveKept s p e.name (write env s w).2 w.parent w.name ↔
      TargetTakes env s p e.name e.inode w := by
  have hs' : Settled (view (write env s w).2) := h.settled.write h.target
  have hk' : Packed (view (write env s w).2) :=
    h.source.packed.call env h.settled (c := .write w) h.target
  have hunp := write_fails h.settled h.target hcode h.dir.1
  have hun := write_fails h.settled h.target hcode h.used
  have he' : FileEntry (write env s w).2 p e := by
    refine ⟨hs', hk', (congrArg EXT2Inode.isDir hunp.inode).trans h.dir.2, ?_,
      (congrArg EXT2Inode.isDir hun.inode).trans h.source.file, h.source.name⟩
    rw [hunp.dirEntries_eq]
    exact h.source.mem
  have hkept := (keptAt_iff h.source he').mpr
    ⟨write_fails_used h.settled h.target hcode h.used,
      hun.sameContent h.settled h.source.packed hs'⟩
  exact iff_of_true (Or.inl hkept) ⟨h.ne_of_absent hf, fun hok => absurd hok hacc,
    fun c hc => absurd hc (h.no_file_of_absent hf c)⟩

/-- The target is a directory. -/
theorem directory (h : Move s p e w k) (hd : d ∈ (view s).dirEntries w.parent)
    (hdn : d.name = w.name) (hdir : (inodeAt s d.inode).isDir = true) :
    MoveKept s p e.name s w.parent w.name ↔ TargetTakes env s p e.name e.inode w := by
  have hfound := find_present h.settled h.target.2 hd env
  rw [hdn] at hfound
  have hfile : ∀ c, ¬ FileAt s w.parent w.name c := by
    intro c hc
    have hnot := hc.2
    rw [fileAt_unique h.settled h.target.2 hd hdn hc, hdir] at hnot
    cases hnot
  have hother : ¬ (w.parent = p ∧ w.name = e.name) := by
    rintro ⟨rfl, hname⟩
    exact hfile e.inode ⟨⟨e, h.source.mem, hname.symm, rfl⟩, h.source.file⟩
  exact iff_of_true h.unchanged
    ⟨hother, fun hok => absurd hok.1 hfound, fun c hc => absurd hc (hfile c)⟩

/-- The copy is written, and the source, another entry, is deleted. -/
theorem written (h : Move s p e w k) (hw : Written s₂ w n P x v₃ s₁)
    (he₁ : FileEntry s₁ p e) (hp₁ : AllocatedDir s₁ p)
    (hne : ¬ (w.parent = p ∧ w.name = e.name)) :
    MoveKept s p e.name (delete env s₁ (removal k)).2 w.parent w.name ↔
      n ≠ e.inode ∧ Reproduced s e.inode w (view s₂).freeBlocks := by
  have hkn := h.source_name
  obtain rfl := h.source_parent
  have hkl : k.name.len ≠ 0 := hkn.symm ▸ h.source.name
  obtain ⟨b, buf, hrem⟩ : ∃ b buf,
      FileRemoved env s₁ (removal k) e b buf (delete env s₁ (removal k)).2 :=
    delete_file hw.after hp₁ hkl he₁.mem hkn.symm he₁.file
  have hk' : Packed (view (delete env s₁ (removal k)).2) :=
    he₁.packed.call env hw.after (c := .delete (removal k)) hp₁
  generalize (delete env s₁ (removal k)).2 = s' at hrem hk' ⊢
  have hgone : ¬ KeptAt s k.parent e.name s' k.parent e.name := by
    have hname := hrem.name_gone .zero
    rw [← hkn]
    exact not_keptAt_gone hrem.after hrem.allocatedDir.2 hname
  have hcopy := written_fileEntry hw he₁.packed h.carries.kind h.name
  have hused : inodeUsed s₁ n = true := by
    rw [written_used hw, Function.update_self]
  have hkept : KeptAt s k.parent e.name s' w.parent w.name ↔
      n ≠ e.inode ∧ SameContent s e.inode s₁ n :=
    keptAt_removed h.source hrem hk' hcopy hw.allocatedDir
      (fun hq hce => hne ⟨hq, congrArg DirEntry.name hce⟩) hused
  rw [stocked_sameContent_iff hw.stocked h.carries] at hkept
  constructor
  · rintro (hsrc | hdst)
    · exact absurd hsrc hgone
    · exact hkept.mp hdst
  · intro hsafe
    exact Or.inr (hkept.mpr hsafe)

/-- The name is new. -/
theorem fresh (h : Move s p e w k) (hf : findEntryInDir env s w.parent w.name = 0)
    (hacc : Accepted env s w) (hw : Written s w n P x v₃ s₁) (hk₁ : Packed (view s₁)) :
    MoveKept s p e.name (delete env s₁ (removal k)).2 w.parent w.name ↔
      TargetTakes env s p e.name e.inode w := by
  have hne := h.ne_of_absent hf
  have he₁ := fileEntry_written hw hk₁ h.carries.kind h.dir h.source
  rw [h.written hw he₁ (written_dir hw h.dir) hne]
  constructor
  · rintro ⟨-, hrep⟩
    exact ⟨hne, fun _ => hrep, fun c hc => absurd hc (h.no_file_of_absent hf c)⟩
  · rintro ⟨-, hfresh, -⟩
    exact ⟨(stored_ne hw.stored h.used).symm, hfresh hacc⟩

/-- The copy is written over the source, and deleted for it. -/
theorem not_kept_self (h : Move s p e w k) (hw : Written s₂ w n P x v₃ s₁)
    (hsame : w.parent = p ∧ w.name = e.name) :
    ¬ MoveKept s p e.name (delete env s₁ (removal k)).2 w.parent w.name := by
  have hkp : k.parent = w.parent := h.source_parent.trans hsame.1.symm
  have hkn : k.name = w.name := h.source_name.trans hsame.2.symm
  have hp₁ : AllocatedDir s₁ k.parent := hkp.symm ▸ hw.allocatedDir
  have hmem : w.entry n ∈ (view s₁).dirEntries k.parent := hkp.symm ▸ hw.entry_mem
  obtain ⟨b, buf, hrem⟩ : ∃ b buf,
      FileRemoved env s₁ (removal k) (w.entry n) b buf (delete env s₁ (removal k)).2 :=
    delete_file hw.after hp₁ (hkn.symm ▸ h.name) hmem hkn.symm (hw.isDir.trans h.carries.kind)
  generalize (delete env s₁ (removal k)).2 = s' at hrem ⊢
  have hgone : ¬ KeptAt s p e.name s' k.parent k.name :=
    not_keptAt_gone hrem.after hrem.allocatedDir.2 (hrem.name_gone .zero)
  rintro (hsrc | hdst)
  · rw [h.source_parent, h.source_name] at hgone
    exact hgone hsrc
  · rw [hkp, hkn] at hgone
    exact hgone hdst

/-- Where the target is a file, it is the one that is removed. -/
theorem takes_iff (h : Move s p e w k) (hrem : FileRemoved env s (removal w) d b buf s₂) :
    TargetTakes env s p e.name e.inode w ↔
      ¬ (w.parent = p ∧ w.name = e.name) ∧ TargetSafe s e.inode d.inode w := by
  have hfound := find_present h.settled h.target.2 hrem.entry env
  rw [hrem.name_eq] at hfound
  constructor
  · rintro ⟨hne, -, hsafe⟩
    exact ⟨hne, hsafe d.inode ⟨⟨d, hrem.entry, hrem.name_eq, rfl⟩, hrem.file⟩⟩
  · rintro ⟨hne, hsafe⟩
    refine ⟨hne, fun hok => absurd hok.1 hfound, ?_⟩
    intro c hc
    rw [fileAt_unique h.settled h.target.2 hrem.entry hrem.name_eq hc]
    exact hsafe

/-- What the removal of the target leaves of the source. -/
theorem source_removed (h : Move s p e w k) (hrem : FileRemoved env s (removal w) d b buf s₂)
    (hk₂ : Packed (view s₂)) (hne : ¬ (w.parent = p ∧ w.name = e.name)) :
    FileEntry s₂ p e := by
  apply fileEntry_removed hrem hk₂ h.source h.dir
  rintro hpw rfl
  exact hne ⟨hpw.symm, hrem.name_eq.symm⟩

/-- The target is deleted, and the copy cannot be entered: the source is left, but
for an inode that was the target's too. -/
theorem kept_lost (h : Move s p e w k) (hrem : FileRemoved env s (removal w) d b buf s₂)
    (hk₂ : Packed (view s₂)) (hcode : (write env s₂ w).1 ≠ 0)
    (hne : ¬ (w.parent = p ∧ w.name = e.name)) :
    MoveKept s p e.name (write env s₂ w).2 w.parent w.name ↔
      (d.inode = e.inode →
        Reproduced s e.inode w
            (s.group0.bg_free_blocks_count.toNat + (inodeAt s e.inode).i_blocks.toNat) ∧
          s.group0.bg_free_inodes_count + 1 ≠ 0 ∧ FullBelow s e.inode) := by
  have hq₂ : AllocatedDir s₂ w.parent := hrem.allocatedDir
  have hs' : Settled (view (write env s₂ w).2) := hrem.after.write hq₂
  have hk' : Packed (view (write env s₂ w).2) := hk₂.call env hrem.after (c := .write w) hq₂
  have hname : findEntryInDir env s₂ w.parent w.name = 0 := hrem.name_gone env
  have hgone : ¬ KeptAt s p e.name (write env s₂ w).2 w.parent w.name := by
    have hf := write_fails_find hrem.after hq₂ hcode hname env
    have hd' := (congrArg EXT2Inode.isDir
      (write_fails hrem.after hq₂ hcode hq₂.1).inode).trans hq₂.2
    exact not_keptAt_gone hs' hd' hf
  have he₂ := h.source_removed hrem hk₂ hne
  have hfree := hrem.freeBlocks_eq
  have hp₂ := fileRemoved_dir hrem h.dir
  have hkeep : ∀ m, inodeUsed s₂ m = true → Untouched (view s₂) (view (write env s₂ w).2) m ∧
      inodeUsed (write env s₂ w).2 m = true := fun m hm =>
    ⟨write_fails hrem.after hq₂ hcode hm, write_fails_used hrem.after hq₂ hcode hm⟩
  have hsplit := write_fails_cases hrem.after hq₂ hcode
  generalize (write env s₂ w).2 = s' at hs' hk' hgone hkeep hsplit ⊢
  have hunp := (hkeep p hp₂.1).1
  have hfile : (inodeAt s' e.inode).isDir = false := by
    rcases hsplit with ⟨-, rfl⟩ | ⟨-, n, P, x, hst⟩
    · exact he₂.file
    · by_cases han : e.inode = n
      · rw [han, show inodeAt s' n = x from hst.inode_self, hst.isDir]
        exact h.carries.kind
      · rw [show inodeAt s' e.inode = inodeAt s₂ e.inode from hst.inode_ne han]
        exact he₂.file
  have he' : FileEntry s' p e := by
    refine ⟨hs', hk', (congrArg EXT2Inode.isDir hunp.inode).trans hp₂.2, ?_, hfile,
      h.source.name⟩
    rw [hunp.dirEntries_eq]
    exact he₂.mem
  have hkept : MoveKept s p e.name s' w.parent w.name ↔
      inodeUsed s' e.inode = true ∧ SameContent s e.inode s' e.inode := by
    rw [← keptAt_iff h.source he']
    exact ⟨fun hk => hk.resolve_right hgone, Or.inl⟩
  rw [hkept]
  by_cases hde : d.inode = e.inode
  · have hzero : inodeUsed s₂ e.inode = false := by
      rw [hrem.inodeUsed_eq, hde, Function.update_self]
    have hno := hrem.noInode_iff
    rcases hsplit with ⟨hwhy, rfl⟩ | ⟨hinode, n, P, x, hst⟩
    · -- no inode is taken
      have hcount := hno.mp (hwhy.resolve_left (not_not.mpr hname))
      rw [hzero]
      exact iff_of_false (fun hk => by cases hk.1) (fun hk => (hk hde).2.1 hcount)
    · -- the inode that is taken has the content, and may be the source's
      have htaken := stored_eq_iff hrem hst
      have hstock : Stocked s₂ w n P x (view s') s' := ⟨hst, .refl _ _, hs'⟩
      have hused : inodeUsed s' e.inode = Function.update (inodeUsed s₂) n true e.inode :=
        congrFun hst.inodeUsed_eq e.inode
      rw [hde] at htaken
      by_cases hn : n = e.inode
      · rw [hn] at hstock
        rw [hn, Function.update_self] at hused
        have hcontent := stocked_sameContent_iff hstock h.carries
        rw [show (view s₂).freeBlocks = _ from hfree, hde] at hcontent
        rw [hused, hcontent]
        exact ⟨fun hk _ => ⟨hk.2, fun h0 => hinode (hno.mpr h0), htaken.mp hn⟩,
          fun hk => ⟨rfl, (hk hde).1⟩⟩
      · rw [hused, Function.update_of_ne (Ne.symm hn), hzero]
        exact iff_of_false (fun hk => by cases hk.1) (fun hk => hn (htaken.mpr (hk hde).2.2))
  · -- another inode is as it was
    have hue : inodeUsed s₂ e.inode = true := by
      rw [hrem.inodeUsed_eq, Function.update_of_ne (Ne.symm hde)]
      exact h.used
    have hep : e.inode ≠ w.parent := by
      intro heq
      have hdir := h.target.2
      rw [← heq, h.source.file] at hdir
      cases hdir
    obtain ⟨hun, hused⟩ := hkeep e.inode hue
    have hsame := ((fileRemoved_untouched hrem (Ne.symm hde) hep).trans hun).sameContent
      h.settled h.source.packed hs'
    exact iff_of_true ⟨hused, hsame⟩ (fun heq => absurd heq hde)

theorem lost (h : Move s p e w k) (hrem : FileRemoved env s (removal w) d b buf s₂)
    (hk₂ : Packed (view s₂)) (hrep : ¬ Replaceable s w d.inode)
    (hcode : (write env s₂ w).1 ≠ 0) :
    MoveKept s p e.name (write env s₂ w).2 w.parent w.name ↔
      TargetTakes env s p e.name e.inode w := by
  rw [h.takes_iff hrem]
  by_cases hsame : w.parent = p ∧ w.name = e.name
  · -- the source has been deleted for the target
    have hq₂ : AllocatedDir s₂ w.parent := hrem.allocatedDir
    have hs' : Settled (view (write env s₂ w).2) := hrem.after.write hq₂
    have hf := write_fails_find hrem.after hq₂ hcode (hrem.name_gone env) env
    have hd' := (congrArg EXT2Inode.isDir
      (write_fails hrem.after hq₂ hcode hq₂.1).inode).trans hq₂.2
    have hgone : ¬ KeptAt s p e.name (write env s₂ w).2 w.parent w.name :=
      not_keptAt_gone hs' hd' hf
    refine iff_of_false ?_ (fun hk => hk.1 hsame)
    rw [hsame.1, hsame.2] at hgone ⊢
    rintro (hsrc | hdst)
    · exact hgone hsrc
    · exact hgone hdst
  · rw [h.kept_lost hrem hk₂ hcode hsame]
    constructor
    · intro hsafe
      refine ⟨hsame, fun _ hok => absurd hok hrep, ?_⟩
      intro heq
      obtain ⟨hstored, hcount, hfull⟩ := hsafe heq
      rw [heq] at hrep
      exact ⟨hstored, hcount, iff_of_false hrep (not_not.mpr hfull)⟩
    · rintro ⟨-, -, hsafe⟩ heq
      obtain ⟨hstored, hcount, hiff⟩ := hsafe heq
      rw [heq] at hrep
      exact ⟨hstored, hcount, not_not.mp fun hfull => hrep (hiff.mpr hfull)⟩

/-- The copy is written in the place of another file. -/
theorem replaced (h : Move s p e w k) (hrem : FileRemoved env s (removal w) d b buf s₂)
    (hk₂ : Packed (view s₂)) (hrep : Replaceable s w d.inode) (hw : Written s₂ w n P x v₃ s₁)
    (hk₁ : Packed (view s₁)) :
    MoveKept s p e.name (delete env s₁ (removal k)).2 w.parent w.name ↔
      TargetTakes env s p e.name e.inode w := by
  rw [h.takes_iff hrem]
  by_cases hsame : w.parent = p ∧ w.name = e.name
  · exact iff_of_false (h.not_kept_self hw hsame) (fun hk => hk.1 hsame)
  · have he₂ := h.source_removed hrem hk₂ hsame
    have hp₂ := fileRemoved_dir hrem h.dir
    have he₁ := fileEntry_written hw hk₁ h.carries.kind hp₂ he₂
    rw [h.written hw he₁ (written_dir hw hp₂) hsame,
      show (view s₂).freeBlocks = _ from hrem.freeBlocks_eq]
    by_cases hde : d.inode = e.inode
    · have htaken := stored_eq_iff hrem hw.stored
      rw [hde] at htaken hrep ⊢
      constructor
      · rintro ⟨hn, hstored⟩
        exact ⟨hsame, fun hne => absurd rfl hne,
          fun _ => ⟨hstored, hrep.1, iff_of_true hrep fun hfull => hn (htaken.mpr hfull)⟩⟩
      · rintro ⟨-, -, hsafe⟩
        obtain ⟨hstored, -, hiff⟩ := hsafe rfl
        exact ⟨fun hn => hiff.mp hrep (htaken.mp hn), hstored⟩
    · have hue : inodeUsed s₂ e.inode = true := by
        rw [hrem.inodeUsed_eq, Function.update_of_ne (Ne.symm hde)]
        exact h.used
      constructor
      · rintro ⟨-, hstored⟩
        exact ⟨hsame, fun _ _ => hstored, fun heq => absurd heq hde⟩
      · rintro ⟨-, hsafe, -⟩
        exact ⟨(stored_ne hw.stored hue).symm, hsafe hde hrep⟩

/-- Case by case over what becomes of the target. -/
theorem kept_iff (h : Move s p e w k) (hout : Overwrite env s w ret) :
    MoveKept s p e.name (if ret.1 ≠ 0 then ret.2 else (delete env ret.2 (removal k)).2)
        w.parent w.name ↔ TargetTakes env s p e.name e.inode w := by
  cases hout with
  | refused hf hacc hcode =>
      rw [if_pos hcode]
      exact h.refused hf hacc hcode
  | fresh hf hacc hw hk₁ =>
      rw [if_neg (not_not.mpr rfl)]
      exact h.fresh hf hacc hw hk₁
  | directory hd hdn hdir =>
      rw [if_pos one_ne_zero]
      exact h.directory hd hdn hdir
  | lost hrem hk₂ hrep hcode =>
      rw [if_pos hcode]
      exact h.lost hrem hk₂ hrep hcode
  | replaced hrem hk₂ hrep hw hk₁ =>
      rw [if_neg (not_not.mpr rfl)]
      exact h.replaced hrem hk₂ hrep hw hk₁

end Move

/-! ## Never a file lost, exactly -/

theorem dirAt_unique {d' : ℕ} (hs : Settled (view s)) (hd : ((view s).inode p).isDir = true)
    (h : DirAt s p name a) (h' : DirAt s p name d') : d' = a := by
  obtain ⟨⟨e, he, hen, rfl⟩, -⟩ := h
  obtain ⟨⟨e', he', hen', rfl⟩, -⟩ := h'
  rw [List.inj_on_of_nodup_map (hs.names _ hd) he' he (hen'.trans hen.symm)]

theorem isDirectory_statics (env : Env) (sh : Statics) (s : Fs) (name : EntryName) :
    (isDirectory env sh s name).2.current_dir_inode = sh.current_dir_inode ∧
      (isDirectory env sh s name).2.file_buffer = sh.file_buffer := by
  unfold isDirectory
  dsimp only
  split
  · split <;> exact ⟨rfl, rfl⟩
  · exact ⟨rfl, rfl⟩

/-- The parent of the target is a directory. -/
theorem target_dir (hs : Settled (view s)) (hd : AllocatedDir s sh.dir)
    (hres : Resolved env sh s dst) :
    AllocatedDir s (moveTarget env sh s src dst).1.toNat := by
  unfold moveTarget
  dsimp only
  by_cases h0 : (isDirectory env sh s dst).1 = 0
  · rw [if_neg (not_not.mpr h0)]
    exact hd
  · obtain ⟨-, hdir⟩ := hres h0
    rw [if_pos h0, (isSlot_of_isDir hdir).word]
    exact hs.allocatedDir hdir

/-- The target is the destination, unless a directory has been overlooked. -/
theorem destination_iff (hs : Settled (view s)) (hd : AllocatedDir s sh.dir)
    (hres : Resolved env sh s dst)
    (hseen : (isDirectory env sh s dst).1 = 0 → ∀ d, ¬ DirAt s sh.dir dst d) :
    Destination s sh.dir src dst q name ↔
      q = (moveTarget env sh s src dst).1.toNat ∧ name = (moveTarget env sh s src dst).2 := by
  unfold moveTarget
  dsimp only
  by_cases h0 : (isDirectory env sh s dst).1 = 0
  · rw [if_neg (not_not.mpr h0)]
    constructor
    · rintro (hdir | -)
      · exact absurd hdir (hseen h0 _)
      · exact ⟨rfl, rfl⟩
    · rintro ⟨rfl, rfl⟩
      exact .rename (hseen h0)
  · have hdir := hres h0
    rw [if_pos h0, (isSlot_of_isDir hdir.2).word]
    constructor
    · rintro (hdir' | hno)
      · exact ⟨dirAt_unique hs hd.2 hdir hdir', rfl⟩
      · exact absurd hdir (hno _)
    · rintro ⟨rfl, rfl⟩
      exact .into hdir

theorem cmdMv_overrun (hsrc : src.len ≠ 0) (hdst : dst.len ≠ 0)
    (hlen : 128 ≤ (moveTarget env sh s src dst).2.len) :
    (cmdMv env sh s src dst).1 = .overrun := by
  unfold cmdMv
  rw [if_neg (not_or.mpr ⟨hsrc, hdst⟩)]
  dsimp only
  rw [if_pos hlen]

theorem cmdMv_fetched {size : BitVec 32} {file : ℕ → BitVec 8} (hsrc : src.len ≠ 0)
    (hdst : dst.len ≠ 0) (hlen : ¬ 128 ≤ (moveTarget env sh s src dst).2.len)
    (hfetch : fetch env (isDirectory env sh s dst).2 s src = .fetched size file)
    (hw : fileRequest file (moveTarget env sh s src dst).2 (moveTarget env sh s src dst).1 size =
      w) :
    (cmdMv env sh s src dst).1 ≠ .overrun ∧
      (cmdMv env sh s src dst).2.2 =
        if (writeOver env s w).1 ≠ 0 then (writeOver env s w).2
        else (delete env (writeOver env s w).2 (removal (sourceRequest sh src))).2 := by
  have hcwd := (isDirectory_statics env sh s dst).1
  unfold cmdMv
  rw [if_neg (not_or.mpr ⟨hsrc, hdst⟩)]
  dsimp only
  rw [if_neg hlen, hfetch]
  dsimp only
  rw [hw]
  unfold sourceRequest
  rw [hcwd]
  by_cases hcode : (writeOver env s w).1 = 0
  · rw [if_neg (not_not.mpr hcode), if_neg (not_not.mpr hcode)]
    exact ⟨MvReport.noConfusion, rfl⟩
  · rw [if_pos hcode, if_pos hcode]
    exact ⟨MvReport.noConfusion, rfl⟩

/-- A move that is made, to the directory entry that the name stands for. -/
theorem fileKept_iff (hs : Settled (view s)) (hk : Packed (view s)) (hd : AllocatedDir s sh.dir)
    (hfile : LiveFile s sh.dir src a) (hsize : (inodeAt s a).i_size.toNat ≤ fileBufferSize)
    (hsrc : src.len ≠ 0) (hdst : dst.len ≠ 0) (hres : Resolved env sh s dst) :
    FileKept env sh s src dst ↔ (moveTarget env sh s src dst).2.len < 128 ∧
      TargetTakes env s sh.dir src a (moveRequest sh s a (moveTarget env sh s src dst)) := by
  by_cases hlen : 128 ≤ (moveTarget env sh s src dst).2.len
  · exact iff_of_false (fun hkept => hkept.1 (cmdMv_overrun hsrc hdst hlen))
      (fun hok => absurd hlen (not_le.mpr hok.1))
  obtain ⟨⟨e, he, rfl, rfl⟩, hused, hnotdir⟩ := hfile
  have hcwd := (isDirectory_statics env sh s dst).1
  have hdir : (isDirectory env sh s dst).2.dir = sh.dir := congrArg BitVec.toNat hcwd
  -- the source is read
  obtain ⟨file, hfetch, hcarries⟩ : ∃ file,
      fetch env (isDirectory env sh s dst).2 s e.name =
        .fetched (inodeAt s e.inode).i_size file ∧
      ∀ name parent, Carries s e.inode
        (fileRequest file name parent (inodeAt s e.inode).i_size) := by
    rcases fetch_outcome env hs hk (hdir.symm ▸ hd) hsrc with
      ⟨e', file, he', hname, hfetch, hcarries⟩ | ⟨hlarge, -⟩
    · have hmem := he'.mem
      rw [hdir] at hmem
      rw [List.inj_on_of_nodup_map (hs.names _ hd.2) hmem he hname] at hfetch hcarries
      exact ⟨file, hfetch, hcarries⟩
    · refine absurd hsize (not_le.mpr (hlarge e.inode ⟨⟨e, ?_, rfl, rfl⟩, hnotdir⟩))
      rw [hdir]
      exact he
  obtain ⟨hreport, hstate⟩ := cmdMv_fetched hsrc hdst hlen hfetch rfl
  have htarget : AllocatedDir s (moveTarget env sh s e.name dst).1.toNat := target_dir hs hd hres
  have hname : (moveTarget env sh s e.name dst).2.len ≠ 0 := by
    unfold moveTarget
    dsimp only
    split
    · exact hsrc
    · exact hdst
  have hmove : Move s sh.dir e (fileRequest file (moveTarget env sh s e.name dst).2
      (moveTarget env sh s e.name dst).1 (inodeAt s e.inode).i_size)
      (sourceRequest sh e.name) :=
    ⟨hd, htarget, ⟨hs, hk, hd.2, he, hnotdir, hsrc⟩, hused, hcarries _ _, hname, rfl, rfl⟩
  have hout := writeOver_outcome env hs hk hmove.target rfl hname hmove.carries.dataBlocks_le
  have hkept := hmove.kept_iff hout
  rw [← hstate] at hkept
  have htakes : TargetTakes env s sh.dir e.name e.inode (moveRequest sh s e.inode
      (moveTarget env sh s e.name dst)) ↔ MoveKept s sh.dir e.name
        (cmdMv env sh s e.name dst).2.2 (moveTarget env sh s e.name dst).1.toNat
        (moveTarget env sh s e.name dst).2 := hkept.symm
  have hshort : (moveTarget env sh s e.name dst).2.len < 128 := not_le.mp hlen
  by_cases hseen : (isDirectory env sh s dst).1 = 0 → ∀ d, ¬ DirAt s sh.dir dst d
  · have hdest : ∀ q name, Destination s sh.dir e.name dst q name ↔ _ := fun q name =>
      destination_iff hs hd hres hseen
    have hiff : FileKept env sh s e.name dst ↔ MoveKept s sh.dir e.name
        (cmdMv env sh s e.name dst).2.2 (moveTarget env sh s e.name dst).1.toNat
        (moveTarget env sh s e.name dst).2 := by
      constructor
      · rintro ⟨-, hsrc' | ⟨q, name, hq, hat⟩⟩
        · exact Or.inl hsrc'
        · obtain ⟨rfl, rfl⟩ := (hdest q name).mp hq
          exact Or.inr hat
      · rintro (hsrc' | hat)
        · exact ⟨hreport, Or.inl hsrc'⟩
        · exact ⟨hreport, Or.inr ⟨_, _, (hdest _ _).mpr ⟨rfl, rfl⟩, hat⟩⟩
    rw [hiff, htakes]
    exact ⟨fun h => ⟨hshort, h⟩, fun h => h.2⟩
  · -- the target is a directory that was overlooked
    push Not at hseen
    obtain ⟨h0, d, ⟨c, hc, hcn, rfl⟩, hcdir⟩ := hseen
    have htgt : moveTarget env sh s e.name dst = (sh.current_dir_inode, dst) :=
      if_neg (not_not.mpr h0)
    have hret := hout.of_dir hs hmove.target (e := c) (by rw [htgt]; exact hc)
      (by rw [htgt]; exact hcn) hcdir
    have hsame : (cmdMv env sh s e.name dst).2.2 = s := by
      rw [hstate, hret]
      rfl
    refine iff_of_true ⟨hreport, Or.inl ?_⟩ ⟨hshort, htakes.mpr ?_⟩
    · rw [hsame]
      exact ⟨⟨e.inode, ⟨e, he, rfl, rfl⟩, hused, hnotdir⟩, .refl ..⟩
    · rw [hsame]
      exact hmove.unchanged

/-- **`mv` never loses a file** that has another name than its target, and whose
copy is stored whole if it is stored. Where `is_directory` answers with the inode
of another entry, left in `dir_buffer`, nothing is said about the loss. -/
theorem mv_keeps_file_iff (h : Reachable OnDirectory s) (hd : AllocatedDir s sh.dir)
    (hfile : LiveFile s sh.dir src a) (hsize : (inodeAt s a).i_size.toNat ≤ fileBufferSize) :
    (MoveSafe env sh s src dst a → FileKept env sh s src dst) ∧
      (Resolved env sh s dst → FileKept env sh s src dst → MoveSafe env sh s src dst a) := by
  have hs : Settled (view s) := reachable_settled h
  have hk := reachable_packed h
  by_cases hopd : src.len = 0 ∨ dst.len = 0
  · have hstate : cmdMv env sh s src dst = (.missingOperand, sh, s) := if_pos hopd
    constructor
    · intro _
      unfold FileKept
      dsimp only
      rw [hstate]
      exact ⟨MvReport.noConfusion, Or.inl ⟨⟨a, hfile⟩, .refl ..⟩⟩
    · intro _ _ hsrc hdst
      exact absurd hopd (not_or.mpr ⟨hsrc, hdst⟩)
  obtain ⟨hsrc, hdst⟩ := not_or.mp hopd
  constructor
  · intro hsafe
    obtain ⟨hres, htakes⟩ := hsafe hsrc hdst
    exact (fileKept_iff hs hk hd hfile hsize hsrc hdst hres).mpr htakes
  · intro hres hkept _ _
    exact ⟨hres, (fileKept_iff hs hk hd hfile hsize hsrc hdst hres).mp hkept⟩

/-! ## A file moved onto itself -/

/-- The small file `a`, moved to `a`. -/
theorem smallFile_move :
    (AllocatedDir (smallFile.run .zero freshFs).2 Statics.start.dir ∧
      findEntryInDir .zero (smallFile.run .zero freshFs).2 Statics.start.dir (.letter 0x61) = 12 ∧
      inodeUsed (smallFile.run .zero freshFs).2 12 = true ∧
      (inodeAt (smallFile.run .zero freshFs).2 12).isDir = false ∧
      (inodeAt (smallFile.run .zero freshFs).2 12).i_size.toNat ≤ fileBufferSize) ∧
    (cmdMv .zero .start (smallFile.run .zero freshFs).2 (.letter 0x61) (.letter 0x61)).1 = .moved ∧
    findEntryInDir .zero
      (cmdMv .zero .start (smallFile.run .zero freshFs).2 (.letter 0x61) (.letter 0x61)).2.2
      Statics.start.dir (.letter 0x61) = 0 := by
  decide +kernel

theorem smallFile_reachable : Reachable OnDirectory (smallFile.run .zero freshFs).2 :=
  (Reachable.fresh OnDirectory).step .zero (show AllocatedDir freshFs 2 by decide +kernel)

theorem smallFile_live :
    LiveFile (smallFile.run .zero freshFs).2 Statics.start.dir (.letter 0x61) 12 := by
  obtain ⟨⟨hroot, hfind, hused, hfile, -⟩, -⟩ := smallFile_move
  have hs := reachable_settled smallFile_reachable
  generalize (smallFile.run .zero freshFs).2 = s at *
  obtain ⟨e, he, hname, hinode⟩ := hs.found_entry hroot.2
    (show findEntryInDir .zero s Statics.start.dir (.letter 0x61) ≠ 0 by rw [hfind]; decide)
  exact ⟨⟨e, he, hname, hinode.symm.trans hfind⟩, hused, hfile⟩

theorem smallFile_not_kept :
    ¬ FileKept .zero .start (smallFile.run .zero freshFs).2 (.letter 0x61) (.letter 0x61) := by
  obtain ⟨⟨hroot, -⟩, -, hgone⟩ := smallFile_move
  have hs := reachable_settled smallFile_reachable
  have hlive := smallFile_live
  generalize (smallFile.run .zero freshFs).2 = s at *
  obtain ⟨⟨e, he, hname, hinode⟩, -, hfile⟩ := hlive
  have hlost : ¬ KeptAt s Statics.start.dir (.letter 0x61)
      (cmdMv .zero .start s (.letter 0x61) (.letter 0x61)).2.2 Statics.start.dir
      (.letter 0x61) := by
    rintro ⟨-, hsame⟩
    have hstat := hs.stat_entry .zero hroot.2 he false
    rw [hname, if_neg (show ¬ (false = true ∨ (EntryName.letter 0x61).len = 0) by decide),
      ← hsame.stat .zero] at hstat
    exact stat_absent hgone (congrArg Prod.fst hstat)
  rintro ⟨-, hsrc | ⟨q, name, hdest, hat⟩⟩
  · exact hlost hsrc
  · rcases hdest with ⟨⟨e', he', hname', rfl⟩, hdir⟩ | -
    · rw [List.inj_on_of_nodup_map (hs.names _ hroot.2) he' he (hname'.trans hname.symm), hinode,
        hfile] at hdir
      cases hdir
    · exact hlost hat

/-- `mv a a` finds `a`, replaces it by its own copy, and deletes that. -/
theorem mv_onto_itself :
    Reachable OnDirectory (smallFile.run .zero freshFs).2 ∧
      AllocatedDir (smallFile.run .zero freshFs).2 Statics.start.dir ∧
      LiveFile (smallFile.run .zero freshFs).2 Statics.start.dir (.letter 0x61) 12 ∧
      (inodeAt (smallFile.run .zero freshFs).2 12).i_size.toNat ≤ fileBufferSize ∧
      ¬ FileKept .zero .start (smallFile.run .zero freshFs).2 (.letter 0x61) (.letter 0x61) := by
  obtain ⟨⟨hroot, -, -, -, hsize⟩, -⟩ := smallFile_move
  exact ⟨smallFile_reachable, hroot, smallFile_live, hsize, smallFile_not_kept⟩

/-- The condition fails there. -/
theorem mv_smallFile_unsafe :
    ¬ MoveSafe .zero .start (smallFile.run .zero freshFs).2 (.letter 0x61) (.letter 0x61) 12 := by
  obtain ⟨⟨hroot, -, -, -, hsize⟩, -⟩ := smallFile_move
  intro hsafe
  exact smallFile_not_kept ((mv_keeps_file_iff smallFile_reachable hroot smallFile_live hsize).1
    hsafe)

end RendangOS.Shell
