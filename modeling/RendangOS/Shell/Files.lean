import RendangOS.Ext2.FileContent

/-!
# The file commands of the shell

What `cp` and `mv` of the user shell share: they take the size of a file, read it
into `file_buffer`, and `write`, `delete` and `write` again to put it in the
place of another. The name of a request stands for the bytes of a C string in
front of its terminator.
-/

namespace RendangOS.Shell

open Ext2 Image RecordChain Assoc

/-- The static variables of the shell that its file commands use. -/
structure Statics where
  current_dir_inode : BitVec 32
  /-- 4096 bytes. -/
  dir_buffer : ℕ → BitVec 8
  /-- 32768 bytes. -/
  file_buffer : ℕ → BitVec 8

/-- `current_dir_inode` as an inode number. -/
def Statics.dir (sh : Statics) : ℕ := sh.current_dir_inode.toNat

/-- The shell when it starts. -/
def Statics.start : Statics where
  current_dir_inode := 2
  dir_buffer := fun _ => 0
  file_buffer := fun _ => 0

/-- `sizeof(file_buffer)`. -/
@[simp] def fileBufferSize : ℕ := 32768

/-- `sizeof(dir_buffer)`. -/
@[simp] def dirBufferSize : ℕ := 4096

/-- The size as an `int32_t`, or -1. -/
def getFileSize (env : Env) (s : Fs) (filename : EntryName) (parentInode : BitVec 32) : ℤ :=
  let ret := stat env s filename false parentInode.toNat
  if ret.1 ≠ 0 then -1 else (ret.2.map fun out => out.1.toInt).getD 0

/-- A request about a file. -/
def fileRequest (buf : ℕ → BitVec 8) (name : EntryName) (parentInode bufferSize : BitVec 32) :
    Request where
  buf := buf
  name := name
  name_null := false
  parent_inode := parentInode
  buffer_size := bufferSize
  is_directory := false

/-- How far `cp` and `mv` come with their source. -/
inductive Fetch where
  | noSource
  | tooLarge
  /-- With `file_buffer`. -/
  | unreadable (buf : ℕ → BitVec 8)
  /-- With `file_size` and `file_buffer`. -/
  | fetched (fileSize : BitVec 32) (buf : ℕ → BitVec 8)

/-- The size of `src`, and its bytes into `file_buffer`. -/
def fetch (env : Env) (sh : Statics) (s : Fs) (src : EntryName) : Fetch :=
  let fileSize := getFileSize env s src sh.current_dir_inode
  if fileSize < 0 then .noSource
  else if fileSize > fileBufferSize then .tooLarge
  else
    let size := BitVec.ofInt 32 fileSize
    let ret := read env s (fileRequest sh.file_buffer src sh.current_dir_inode size)
    if ret.1 ≠ 0 then .unreadable ret.2 else .fetched size ret.2

/-- The request for the removal of the file that a write request names. -/
def removal (w : Request) : Request := fileRequest (fun _ => 0) w.name w.parent_inode 0

/-- `write`; if the name exists, `delete` whatever comes of it, and `write` again. -/
def writeOver (env : Env) (s : Fs) (w : Request) : ℤ × Fs :=
  let ret := write env s w
  if ret.1 = 1 then write env (delete env ret.2 (removal w)).2 w else ret

variable {env : Env} {s s' : Fs} {w r q : Request} {m p : ℕ} {e : DirEntry} {b : ℕ}
  {buf : Block} {name : EntryName}

/-! ## Names -/

/-- A name that is not in the directory is not found. -/
theorem find_absent (hs : Settled (view s)) (hd : ((view s).inode p).isDir = true)
    (hname : ∀ e ∈ (view s).dirEntries p, e.name ≠ name) (env : Env) :
    findEntryInDir env s p name = 0 := by
  by_contra hf
  obtain ⟨e, he, hen, -⟩ := hs.found_entry hd hf
  exact hname e he hen

theorem find_present (hs : Settled (view s)) (hd : ((view s).inode p).isDir = true)
    (he : e ∈ (view s).dirEntries p) (env : Env) : findEntryInDir env s p e.name ≠ 0 := by
  rw [hs.find_entry env hd he]
  exact (hs.target_slot hd he).ne_zero

theorem absent_of_find (hs : Settled (view s)) (hd : ((view s).inode p).isDir = true)
    (hf : findEntryInDir env s p name = 0) : ∀ e ∈ (view s).dirEntries p, e.name ≠ name := by
  rintro e he rfl
  exact find_present hs hd he env hf

/-! ## The source -/

/-- `name` is the entry of inode `a` in directory `p`, and that is no directory. -/
def FileAt (s : Fs) (p : ℕ) (name : EntryName) (a : ℕ) : Prop :=
  (∃ e ∈ (view s).dirEntries p, e.name = name ∧ e.inode = a) ∧ (inodeAt s a).isDir = false

/-- The request has the size of file `a`, and in its buffer what is stored of it. -/
structure Carries (s : Fs) (a : ℕ) (w : Request) : Prop where
  size : w.buffer_size = (inodeAt s a).i_size
  buf : ∀ k < fileLength s a, w.buf k = fileByte s a k
  small : w.size ≤ fileBufferSize
  kind : w.is_directory = false

theorem Carries.dataBlocks_le {a : ℕ} (h : Carries s a w) : w.dataBlocks ≤ 140 := by
  have hsmall : w.size ≤ 32768 := h.small
  unfold Request.dataBlocks
  omega

theorem getFileSize_entry (hs : Settled (view s)) (hd : ((view s).inode p).isDir = true)
    (he : e ∈ (view s).dirEntries p) (hlen : e.name.len ≠ 0) (env : Env) {parentInode : BitVec 32}
    (hp : parentInode.toNat = p) :
    getFileSize env s e.name parentInode = (inodeAt s e.inode).i_size.toInt := by
  have hok : ¬ (false = true ∨ e.name.len = 0) := by
    rintro (hnull | hzero)
    · cases hnull
    · exact hlen hzero
  unfold getFileSize
  rw [hp, hs.stat_entry env hd he, if_neg hok]
  rfl

theorem stat_absent (hf : findEntryInDir env s p name = 0) :
    (stat env s name false p).1 ≠ 0 := by
  unfold stat
  dsimp only
  rw [if_pos hf]
  split
  · exact (by decide : (-1 : ℤ) ≠ 0)
  · split
    · exact (by decide : (-1 : ℤ) ≠ 0)
    · exact (by decide : (1 : ℤ) ≠ 0)

theorem getFileSize_absent (hf : findEntryInDir env s p name = 0) {parentInode : BitVec 32}
    (hp : parentInode.toNat = p) : getFileSize env s name parentInode = -1 := by
  unfold getFileSize
  rw [hp]
  exact if_pos (stat_absent hf)

/-- `read` of an entry that names a directory. -/
theorem read_dir (hs : Settled (view s)) (hd : ((view s).inode p).isDir = true)
    (he : e ∈ (view s).dirEntries p) (hp : q.parent = p) (hn : q.name = e.name)
    (hdir : (inodeAt s e.inode).isDir = true) (env : Env) : Ext2.read env s q = (1, q.buf) := by
  have ht := hs.target_slot hd he
  have hslot := isSlot_of_isDir hd
  have hp0 : p ≠ 0 := hslot.ne_zero
  have ht0 : e.inode ≠ 0 := ht.ne_zero
  unfold Ext2.read
  rw [if_neg hs.initialized_ne, hp, if_neg hp0, hn, hs.find_entry env hd he]
  dsimp only
  rw [if_neg ht0, hs.readInode env ht]
  exact if_pos hdir

/-- `fetch` comes to its end exactly for a file that fits into `file_buffer`. -/
theorem fetch_outcome {sh : Statics} {src : EntryName} (env : Env) (hs : Settled (view s))
    (hk : Packed (view s)) (hd : AllocatedDir s sh.dir) (hlen : src.len ≠ 0) :
    (∃ e buf, FileEntry s sh.dir e ∧ e.name = src ∧
      fetch env sh s src = .fetched (inodeAt s e.inode).i_size buf ∧
      ∀ dst parent, Carries s e.inode
        (fileRequest buf dst parent (inodeAt s e.inode).i_size)) ∨
    (∀ a, FileAt s sh.dir src a → fileBufferSize < (inodeAt s a).i_size.toNat) ∧
      ∀ size buf, fetch env sh s src ≠ .fetched size buf := by
  by_cases hfind : findEntryInDir env s sh.dir src = 0
  · refine Or.inr ⟨?_, ?_⟩
    · rintro a ⟨⟨e, he, rfl, -⟩, -⟩
      exact absurd hfind (find_present hs hd.2 he env)
    · intro size buf heq
      unfold fetch at heq
      rw [getFileSize_absent hfind rfl] at heq
      cases heq
  obtain ⟨e, he, rfl, -⟩ := hs.found_entry hd.2 hfind
  have hsize := getFileSize_entry hs hd.2 he hlen env
    (show sh.current_dir_inode.toNat = sh.dir from rfl)
  have hunique : ∀ a, FileAt s sh.dir e.name a → a = e.inode := by
    rintro a ⟨⟨e', he', hname, rfl⟩, -⟩
    rw [List.inj_on_of_nodup_map (hs.names _ hd.2) he' he hname]
  have hcond := (inodeAt s e.inode).i_size.toInt_eq_toNat_cond
  have hlt := (inodeAt s e.inode).i_size.isLt
  by_cases hdir : (inodeAt s e.inode).isDir = true
  · refine Or.inr ⟨?_, ?_⟩
    · intro a ha
      have hfile := ha.2
      rw [hunique a ha, hdir] at hfile
      cases hfile
    · intro size buf heq
      unfold fetch at heq
      dsimp only at heq
      rw [hsize, read_dir hs hd.2 he rfl rfl hdir env] at heq
      split at heq
      · cases heq
      · split at heq <;> cases heq
  · have hfile : FileEntry s sh.dir e := ⟨hs, hk, hd.2, he, by simpa using hdir, hlen⟩
    by_cases hsmall : (inodeAt s e.inode).i_size.toNat ≤ 32768
    · refine Or.inl ⟨e, fun k =>
        if k < min (inodeAt s e.inode).i_size.toNat (fileLength s e.inode) then
          fileByte s e.inode k
        else sh.file_buffer k, hfile, rfl, ?_, ?_⟩
      · unfold fetch
        dsimp only
        rw [hsize, if_neg (by split at hcond <;> omega),
          if_neg (by rw [fileBufferSize]; split at hcond <;> omega), BitVec.ofInt_toInt,
          hfile.read env rfl rfl]
        rfl
      · intro dst parent
        refine ⟨rfl, ?_, hsmall, rfl⟩
        intro k hk
        have hle := fileLength_le s e.inode
        exact if_pos (lt_min (lt_of_lt_of_le hk hle) hk)
    · refine Or.inr ⟨?_, ?_⟩
      · intro a ha
        rw [hunique a ha]
        exact not_le.mp hsmall
      · intro size buf heq
        unfold fetch at heq
        dsimp only at heq
        rw [hsize] at heq
        split at heq
        · cases heq
        · rw [if_pos (by rw [fileBufferSize]; split at hcond <;> omega)] at heq
          cases heq

/-! ## A write that fails -/

/-- It leaves the disk alone, or a new inode that no entry names. -/
theorem write_fails_cases (hs : Settled (view s)) (hp : AllocatedDir s r.parent)
    (hcode : (write env s r).1 ≠ 0) :
    ((findEntryInDir env s r.parent r.name ≠ 0 ∨ (view s).NoInode) ∧ (write env s r).2 = s) ∨
      ¬ (view s).NoInode ∧ ∃ n P x, Stored (view s) r n P x (view (write env s r).2) := by
  rcases hs.write_outcome env hp with
    ⟨hf, hres⟩ | ⟨-, ⟨hno, hres⟩ | ⟨hinode, n, P, x, v₃, hst, ⟨-, hzero, -⟩ | ⟨-, -, hview⟩⟩⟩
  · rw [hres]
    exact Or.inl ⟨Or.inl hf, rfl⟩
  · rw [hres]
    exact Or.inl ⟨Or.inr hno, rfl⟩
  · exact absurd hzero hcode
  · rw [hview]
    exact Or.inr ⟨hinode, n, P, x, hst⟩

theorem stored_ne {n : ℕ} {P : List ℕ} {x : EXT2Inode} {v' : Volume}
    (h : Stored (view s) r n P x v') (hm : inodeUsed s m = true) : m ≠ n := by
  rintro rfl
  rw [show inodeUsed s m = false from h.unused] at hm
  cases hm

/-- Every inode in use is as before. -/
theorem write_fails (hs : Settled (view s)) (hp : AllocatedDir s r.parent)
    (hcode : (write env s r).1 ≠ 0) (hm : inodeUsed s m = true) :
    Untouched (view s) (view (write env s r).2) m := by
  rcases write_fails_cases hs hp hcode with ⟨-, hres⟩ | ⟨-, n, P, x, hst⟩
  · rw [hres]
    exact .refl _ _
  · exact hst.untouched hs.sound (stored_ne hst hm)

theorem write_fails_used (hs : Settled (view s)) (hp : AllocatedDir s r.parent)
    (hcode : (write env s r).1 ≠ 0) (hm : inodeUsed s m = true) :
    inodeUsed (write env s r).2 m = true := by
  rcases write_fails_cases hs hp hcode with ⟨-, hres⟩ | ⟨-, n, P, x, hst⟩
  · rwa [hres]
  · refine (congrFun hst.inodeUsed_eq m).trans ?_
    rwa [Function.update_of_ne (stored_ne hst hm)]

/-- The name is still not found after a write that fails. -/
theorem write_fails_find (hs : Settled (view s)) (hp : AllocatedDir s r.parent)
    (hcode : (write env s r).1 ≠ 0) (hf : findEntryInDir env s r.parent r.name = 0) (env' : Env) :
    findEntryInDir env' (write env s r).2 r.parent r.name = 0 := by
  have hun := write_fails hs hp hcode hp.1
  have hs' : Settled (view (write env s r).2) := hs.write hp
  apply find_absent hs' ((congrArg EXT2Inode.isDir hun.inode).trans hp.2)
  rw [hun.dirEntries_eq]
  exact absent_of_find hs hp.2 hf

/-! ## The removal of a file -/

theorem delete_file (hs : Settled (view s)) (hp : AllocatedDir s w.parent)
    (hlen : w.name.len ≠ 0) (he : e ∈ (view s).dirEntries w.parent) (hen : e.name = w.name)
    (hfile : (inodeAt s e.inode).isDir = false) :
    ∃ b buf, FileRemoved env s (removal w) e b buf (delete env s (removal w)).2 := by
  have hp' : AllocatedDir s (removal w).parent := hp
  apply hs.fileRemoved hp' he hen hfile
  rcases hs.delete_outcome env hp' with ⟨hbad, -⟩ | ⟨-, ⟨hf, -⟩ | ⟨d, hd, hdn, -, hdel⟩⟩
  · rcases hbad with hnull | hzero
    · cases hnull
    · exact absurd hzero hlen
  · exact absurd (hen ▸ hf) (find_present hs hp.2 he env)
  · have hde : d = e := List.inj_on_of_nodup_map (hs.names _ hp.2) hd he (hdn.trans hen.symm)
    subst hde
    generalize delete env s (removal w) = res at hdel ⊢
    cases hdel with
    | kind hne => exact absurd hfile hne
    | full _ hask _ => cases hask
    | removed => rfl

/-- The removal of a directory as a file. -/
theorem delete_dir (hs : Settled (view s)) (hp : AllocatedDir s w.parent)
    (he : e ∈ (view s).dirEntries w.parent) (hen : e.name = w.name)
    (hdir : (inodeAt s e.inode).isDir = true) : (delete env s (removal w)).2 = s := by
  have hp' : AllocatedDir s (removal w).parent := hp
  rcases hs.delete_outcome env hp' with ⟨-, hres⟩ | ⟨-, ⟨-, hres⟩ | ⟨d, hd, hdn, -, hdel⟩⟩
  · rw [hres]
  · rw [hres]
  · have hde : d = e := List.inj_on_of_nodup_map (hs.names _ hp.2) hd he (hdn.trans hen.symm)
    subst hde
    generalize delete env s (removal w) = res at hdel ⊢
    cases hdel with
    | kind => rfl
    | full => rfl
    | removed hrem _ =>
        have hkind := hrem.kind
        rw [(hs.target_slot hp.2 he).slotOf] at hkind
        rw [show ((view s).inode d.inode).isDir = true from hdir] at hkind
        cases hkind

/-- Every inode but the one given back and the directory is as before. -/
theorem fileRemoved_untouched (h : FileRemoved env s q e b buf s') (hm : m ≠ e.inode)
    (hmp : m ≠ q.parent) : Untouched (view s) (view s') m := by
  rw [h.view_eq]
  apply (untouched_setData h.before.sound h.block hmp).trans
  apply Volume.untouched_dealloc
  rwa [h.slot.slotOf]

theorem fileRemoved_perm (h : FileRemoved env s q e b buf s') :
    ((view s).dirEntries q.parent).Perm (e :: (view s').dirEntries q.parent) := by
  rw [h.untouched_parent.dirEntries_eq]
  exact Volume.dirEntries_setData_perm' (h.before.sound.dirBlocks_nodup _) h.block h.removed.perm

theorem fileRemoved_inode (h : FileRemoved env s q e b buf s') :
    inodeAt s' e.inode = EXT2Inode.zero := by
  have hself := ((view s).setData b buf).inode_dealloc_self e.inode
  rw [h.slot.slotOf, ← h.view_eq] at hself
  exact hself

/-- A file stays one, or is no inode any more. -/
theorem fileRemoved_file (h : FileRemoved env s q e b buf s') (hm : (inodeAt s m).isDir = false) :
    (inodeAt s' m).isDir = false := by
  by_cases hme : m = e.inode
  · rw [hme, fileRemoved_inode h]
    exact Sound.zero_isDir
  · have hmp : m ≠ q.parent := by
      rintro rfl
      rw [h.parent.2] at hm
      cases hm
    rw [show inodeAt s' m = inodeAt s m from (fileRemoved_untouched h hme hmp).inode]
    exact hm

theorem fileRemoved_dir (h : FileRemoved env s q e b buf s') (hp : AllocatedDir s p) :
    AllocatedDir s' p := by
  have hpe : p ≠ e.inode := by
    intro heq
    have hdir := hp.2
    rw [heq, h.file] at hdir
    cases hdir
  constructor
  · rw [h.inodeUsed_eq, Function.update_of_ne hpe]
    exact hp.1
  · by_cases hpq : p = q.parent
    · rw [hpq]
      exact h.allocatedDir.2
    · rw [show inodeAt s' p = inodeAt s p from (fileRemoved_untouched h hpe hpq).inode]
      exact hp.2

theorem fileRemoved_unique (h : FileRemoved env s q e b buf s') {d : DirEntry}
    (hd : d ∈ (view s).dirEntries q.parent) (hdn : d.name = q.name) : d = e :=
  List.inj_on_of_nodup_map (h.before.names _ h.parent.2) hd h.entry (hdn.trans h.name_eq.symm)

/-- The other entries stay. -/
theorem fileRemoved_mem (h : FileRemoved env s q e b buf s') (hp : AllocatedDir s p)
    {d : DirEntry} (hd : d ∈ (view s).dirEntries p) (hne : p = q.parent → d ≠ e) :
    d ∈ (view s').dirEntries p := by
  by_cases hpq : p = q.parent
  · subst hpq
    exact List.mem_of_ne_of_mem (hne rfl) ((fileRemoved_perm h).mem_iff.mp hd)
  · have hpe : p ≠ e.inode := by
      intro heq
      have hdir := hp.2
      rw [heq, h.file] at hdir
      cases hdir
    rw [(fileRemoved_untouched h hpe hpq).dirEntries_eq]
    exact hd

/-! ## The copy -/

/-- Every inode below `a` is in use. -/
def FullBelow (s : Fs) (a : ℕ) : Prop := ∀ m, 1 ≤ m → m < a → inodeUsed s m = true

section Written

variable {n a : ℕ} {P : List ℕ} {x : EXT2Inode} {v₃ : Volume} {s₀ : Fs}

theorem written_fileEntry (h : Written s w n P x v₃ s') (hk : Packed (view s'))
    (hf : w.is_directory = false) (hlen : w.name.len ≠ 0) :
    FileEntry s' w.parent (w.entry n) where
  settled := h.after
  packed := hk
  is_dir := h.allocatedDir.2
  mem := h.entry_mem
  file := h.isDir.trans hf
  name := hlen

/-- The copy is as good as its source exactly when as much of it is stored. -/
theorem stocked_sameContent_iff (h : Stocked s w n P x v₃ s') (hc : Carries s₀ a w) :
    SameContent s₀ a s' n ↔
      readable w.size (min (demand w) (view s).freeBlocks) = fileLength s₀ a := by
  have hlength := h.fileLength_eq hc.kind
  constructor
  · intro hsame
    rw [← hlength]
    exact hsame.length
  · intro heq
    rw [← hlength] at heq
    refine ⟨?_, heq, ?_⟩
    · rw [h.inode_eq, h.stored.file_size hc.kind]
      exact hc.size
    · intro k hk
      rw [h.fileByte_eq hc.kind hc.dataBlocks_le (by omega)]
      exact hc.buf k hk

/-- The source keeps its content, also where the copy takes its inode. -/
theorem written_source (h : Written s w n P x v₃ s') (hk : Packed (view s)) (ha : a ≠ w.parent)
    (hsame : SameContent s₀ a s a) (hcopy : SameContent s₀ a s' n) : SameContent s₀ a s' a := by
  by_cases han : a = n
  · rw [← han] at hcopy
    exact hcopy
  · exact hsame.trans ((h.untouched han ha).sameContent h.before hk h.after)

/-- The copy takes the inode that has been given back when that is the first one
free. -/
theorem stored_eq_iff {v' : Volume} (hrem : FileRemoved env s q e b buf s')
    (hst : Stored (view s') w n P x v') : n = e.inode ↔ FullBelow s e.inode := by
  have hused := hrem.inodeUsed_eq
  have hun : inodeUsed s' n = false := hst.unused
  constructor
  · rintro rfl m h1 hlt
    have hm : inodeUsed s' m = true := hst.least m h1 hlt
    rwa [hused, Function.update_of_ne (by omega)] at hm
  · intro hfull
    by_contra hne
    rcases lt_or_gt_of_ne hne with hlt | hgt
    · rw [hused, Function.update_of_ne hne, hfull n hst.slot.1 hlt] at hun
      cases hun
    · have hm : inodeUsed s' e.inode = true := hst.least _ hrem.slot.1 hgt
      rw [hused, Function.update_self] at hm
      cases hm

theorem written_file (h : Written s w n P x v₃ s') (hf : w.is_directory = false)
    (ha : (inodeAt s a).isDir = false) : (inodeAt s' a).isDir = false := by
  by_cases han : a = n
  · rw [han]
    exact h.isDir.trans hf
  · have hap : a ≠ w.parent := by
      rintro rfl
      rw [h.parent.2] at ha
      cases ha
    rw [show inodeAt s' a = inodeAt s a from (h.untouched han hap).inode]
    exact ha

theorem written_mem (h : Written s w n P x v₃ s') (hp : AllocatedDir s p)
    (he : e ∈ (view s).dirEntries p) : e ∈ (view s').dirEntries p := by
  by_cases hpw : p = w.parent
  · rw [hpw] at he ⊢
    exact h.perm.mem_iff.mpr (List.mem_cons_of_mem _ he)
  · rw [(h.untouched (stored_ne h.stored hp.1) hpw).dirEntries_eq]
    exact he

theorem written_dir (h : Written s w n P x v₃ s') (hp : AllocatedDir s p) :
    AllocatedDir s' p := by
  by_cases hpw : p = w.parent
  · rw [hpw]
    exact h.allocatedDir
  · have hpn := stored_ne h.stored hp.1
    constructor
    · refine (congrFun h.added.inodeUsed_eq p).trans ?_
      rw [h.stored.inodeUsed_eq, Function.update_of_ne hpn]
      exact hp.1
    · rw [show inodeAt s' p = inodeAt s p from (h.untouched hpn hpw).inode]
      exact hp.2

/-- Another file is there after the write as well. -/
theorem fileEntry_written (h : Written s w n P x v₃ s') (hk' : Packed (view s'))
    (hf : w.is_directory = false) (hp : AllocatedDir s p) (he : FileEntry s p e) :
    FileEntry s' p e :=
  ⟨h.after, hk', (written_dir h hp).2, written_mem h hp he.mem, written_file h hf he.file, he.name⟩

theorem written_used (h : Written s w n P x v₃ s') (m : ℕ) :
    inodeUsed s' m = Function.update (inodeUsed s) n true m := by
  refine (congrFun h.added.inodeUsed_eq m).trans ?_
  rw [h.stored.inodeUsed_eq]
  rfl

end Written

/-! ## The outcomes of `writeOver` -/

/-- What becomes of a file that is written over whatever has its name. -/
inductive Overwrite (env : Env) (s : Fs) (w : Request) : ℤ × Fs → Prop
  | refused : findEntryInDir env s w.parent w.name = 0 → ¬ Accepted env s w →
      (write env s w).1 ≠ 0 → Overwrite env s w (write env s w)
  | fresh {n : ℕ} {P : List ℕ} {x : EXT2Inode} {v₃ : Volume} {s' : Fs} :
      findEntryInDir env s w.parent w.name = 0 → Accepted env s w → Written s w n P x v₃ s' →
      Packed (view s') → Overwrite env s w (0, s')
  | directory {e : DirEntry} : e ∈ (view s).dirEntries w.parent → e.name = w.name →
      (inodeAt s e.inode).isDir = true → Overwrite env s w (1, s)
  | lost {e : DirEntry} {b : ℕ} {buf : Block} {s₂ : Fs} :
      FileRemoved env s (removal w) e b buf s₂ → Packed (view s₂) → ¬ Replaceable s w e.inode →
      (write env s₂ w).1 ≠ 0 → Overwrite env s w (write env s₂ w)
  | replaced {e : DirEntry} {b n : ℕ} {buf : Block} {P : List ℕ} {x : EXT2Inode} {v₃ : Volume}
      {s₂ s' : Fs} : FileRemoved env s (removal w) e b buf s₂ →
      Packed (view s₂) → Replaceable s w e.inode → Written s₂ w n P x v₃ s' → Packed (view s') →
      Overwrite env s w (0, s')

theorem writeOver_outcome (env : Env) (hs : Settled (view s)) (hk : Packed (view s))
    (hp : AllocatedDir s w.parent) (hf : w.is_directory = false) (hlen : w.name.len ≠ 0)
    (hsize : w.dataBlocks ≤ 140) : Overwrite env s w (writeOver env s w) := by
  have hzero := hs.write_zero_iff env hp
  by_cases hfind : findEntryInDir env s w.parent w.name = 0
  · -- the name is new
    have hone : (write env s w).1 ≠ 1 := by
      rcases hs.write_outcome env hp with
        ⟨hne, -⟩ | ⟨-, ⟨-, hres⟩ | ⟨-, n, P, x, v₃, -, ⟨-, hcode, -⟩ | ⟨-, hcode, -⟩⟩⟩
      · exact absurd hfind hne
      · rw [hres]
        exact (by decide : (-1 : ℤ) ≠ 1)
      · rw [hcode]
        decide
      · rw [hcode]
        decide
    have hover : writeOver env s w = write env s w := if_neg hone
    rw [hover]
    by_cases hcode : (write env s w).1 = 0
    · obtain ⟨n, P, x, v₃, hw⟩ := hs.written env hp hcode
      have hk' : Packed (view (write env s w).2) := hk.call env hs (c := .write w) hp
      rw [← Prod.mk.eta (p := write env s w), hcode]
      exact .fresh hfind (hzero.mp hcode) hw hk'
    · exact .refused hfind (fun hacc => hcode (hzero.mpr hacc)) hcode
  · obtain ⟨e, he, hen, -⟩ := hs.found_entry hp.2 hfind
    have htaken : write env s w = (1, s) := by
      rcases hs.write_outcome env hp with ⟨-, hres⟩ | ⟨hf0, -⟩
      · exact hres
      · exact absurd hf0 hfind
    have hover : writeOver env s w = write env (delete env s (removal w)).2 w := by
      unfold writeOver
      rw [htaken]
      rfl
    rw [hover]
    by_cases hdir : (inodeAt s e.inode).isDir = true
    · rw [delete_dir hs hp he hen hdir, htaken]
      exact .directory he hen hdir
    · obtain ⟨b, buf, hrem⟩ : ∃ b buf,
          FileRemoved env s (removal w) e b buf (delete env s (removal w)).2 :=
        delete_file hs hp hlen he hen (by simpa using hdir)
      have hk₂ : Packed (view (delete env s (removal w)).2) :=
        hk.call env hs (c := .delete (removal w)) hp
      generalize (delete env s (removal w)).2 = s₂ at hrem hk₂ ⊢
      have hp₂ : AllocatedDir s₂ w.parent := hrem.allocatedDir
      have hzero₂ := hrem.after.write_zero_iff env hp₂
      rw [hrem.accepted_iff (r := w) env rfl rfl hf hsize] at hzero₂
      by_cases hcode : (write env s₂ w).1 = 0
      · obtain ⟨n, P, x, v₃, hw⟩ := hrem.after.written env hp₂ hcode
        have hk' : Packed (view (write env s₂ w).2) := hk₂.call env hrem.after (c := .write w) hp₂
        rw [← Prod.mk.eta (p := write env s₂ w), hcode]
        exact .replaced hrem hk₂ (hzero₂.mp hcode) hw hk'
      · exact .lost hrem hk₂ (fun hrep => hcode (hzero₂.mpr hrep)) hcode

/-- A directory is left where it is. -/
theorem Overwrite.of_dir {ret : ℤ × Fs} (h : Overwrite env s w ret) (hs : Settled (view s))
    (hp : AllocatedDir s w.parent) (he : e ∈ (view s).dirEntries w.parent) (hen : e.name = w.name)
    (hdir : (inodeAt s e.inode).isDir = true) : ret = (1, s) := by
  have hfound := find_present hs hp.2 he env
  rw [hen] at hfound
  cases h with
  | refused hf => exact absurd hf hfound
  | fresh hf => exact absurd hf hfound
  | directory => rfl
  | lost hrem =>
      have hfile := hrem.file
      rw [← fileRemoved_unique hrem he hen, hdir] at hfile
      cases hfile
  | replaced hrem =>
      have hfile := hrem.file
      rw [← fileRemoved_unique hrem he hen, hdir] at hfile
      cases hfile

end RendangOS.Shell
