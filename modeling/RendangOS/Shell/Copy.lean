import RendangOS.Shell.Files

/-!
# `cp`

A copy that fails should leave its target alone. `cmd_cp` deletes the target
before it knows that the copy can be stored, and takes what `write` has stored
for the whole.
-/

namespace RendangOS.Shell

open Ext2 Image RecordChain Assoc

/-! ## `cmd_cp` -/

/-- The message of `cmd_cp`. -/
inductive CpReport where
  /-- `"cp: Missing operand"` -/
  | missingOperand
  /-- `"cp: Cannot find source: "` -/
  | noSource
  /-- `"cp: File too large"` -/
  | tooLarge
  /-- `"cp: Cannot read source file: "` -/
  | unreadable
  /-- `"Copied: "` -/
  | copied
  /-- `"cp: Failed to copy"` -/
  | failed
deriving DecidableEq

def cmdCp (env : Env) (sh : Statics) (s : Fs) (src dst : EntryName) : CpReport × Statics × Fs :=
  if src.len = 0 ∨ dst.len = 0 then (.missingOperand, sh, s)
  else
    match fetch env sh s src with
    | .noSource => (.noSource, sh, s)
    | .tooLarge => (.tooLarge, sh, s)
    | .unreadable buf => (.unreadable, { sh with file_buffer := buf }, s)
    | .fetched size buf =>
        let ret := writeOver env s (fileRequest buf dst sh.current_dir_inode size)
        (if ret.1 = 0 then .copied else .failed, { sh with file_buffer := buf }, ret.2)

/-! ## All or nothing -/

/-- `name` is in directory `p` the entry it was before, if any, of an inode that
is as before. -/
structure EntryKept (s : Fs) (p : ℕ) (name : EntryName) (s' : Fs) : Prop where
  entry : ∀ e : DirEntry, e.name = name →
    (e ∈ (view s').dirEntries p ↔ e ∈ (view s).dirEntries p)
  content : ∀ e ∈ (view s).dirEntries p, e.name = name → Untouched (view s) (view s') e.inode
  file : SameFile s p name s' p name

/-- The target is what the source was, and so is the source. -/
def CopyMade (s : Fs) (p : ℕ) (src dst : EntryName) (s' : Fs) : Prop :=
  SameFile s p src s' p dst ∧ (dst ≠ src → SameFile s p src s' p src)

/-- Either `cmd_cp` reports a copy and it is there, or the target is as before. -/
def AllOrNothing (env : Env) (sh : Statics) (s : Fs) (src dst : EntryName) : Prop :=
  let res := cmdCp env sh s src dst
  (res.1 = .copied → CopyMade s sh.dir src dst res.2.2) ∧
    (res.1 ≠ .copied → EntryKept s sh.dir dst res.2.2)

/-! ## When it is -/

/-- The request for the copy of file `a`, whatever is in its buffer. -/
def copyRequest (sh : Statics) (s : Fs) (a : ℕ) (dst : EntryName) : Request :=
  fileRequest sh.file_buffer dst sh.current_dir_inode (inodeAt s a).i_size

/-- With so many blocks free, as much is stored for the request as there is of
file `a`. -/
def Reproduced (s : Fs) (a : ℕ) (w : Request) (free : ℕ) : Prop :=
  readable w.size (min (demand w) free) = fileLength s a

/-- The target can be a new file that is stored in full. -/
def FreshSafe (env : Env) (s : Fs) (a : ℕ) (w : Request) : Prop :=
  Accepted env s w → Reproduced s a w s.group0.bg_free_blocks_count.toNat

/-- The target `b` can be removed and its name written again with the whole
content of `a`. Where both names lead to one inode, that inode is given back with
the target; the source has its content again if there was none, or if the copy
takes the same inode, being the first one free. -/
def ReplaceSafe (s : Fs) (a b : ℕ) (w : Request) (same : Prop) : Prop :=
  Replaceable s w b ∧
    Reproduced s a w (s.group0.bg_free_blocks_count.toNat + (inodeAt s b).i_blocks.toNat) ∧
    (¬ same → a = b → (inodeAt s a).i_size = 0 ∨ FullBelow s a)

def CopySafe (env : Env) (sh : Statics) (s : Fs) (src dst : EntryName) : Prop :=
  ∀ a, FileAt s sh.dir src a → (inodeAt s a).i_size.toNat ≤ fileBufferSize →
    FreshSafe env s a (copyRequest sh s a dst) ∧
    ∀ b, FileAt s sh.dir dst b → ReplaceSafe s a b (copyRequest sh s a dst) (dst = src)

variable {env : Env} {sh : Statics} {s s' s₂ : Fs} {src dst name : EntryName} {p : ℕ}
  {w q : Request} {e d : DirEntry} {b : ℕ} {buf : Block} {ret : ℤ × Fs}

/-! ## The target is kept -/

theorem EntryKept.refl (s : Fs) (p : ℕ) (name : EntryName) : EntryKept s p name s :=
  ⟨fun _ _ => Iff.rfl, fun _ _ _ => .refl _ _, .refl s p name⟩

theorem sameFile_absent (hs : Settled (view s)) (hs' : Settled (view s'))
    (hf : ∀ env, findEntryInDir env s p name = 0)
    (hf' : ∀ env, findEntryInDir env s' p name = 0) : SameFile s p name s' p name := by
  constructor
  · intro env
    unfold stat
    dsimp only
    rw [if_neg hs.initialized_ne, if_neg hs'.initialized_ne, if_pos (hf env), if_pos (hf' env)]
  · rintro env q q' rfl rfl hp hn hbuf -
    unfold Ext2.read
    dsimp only
    rw [if_neg hs.initialized_ne, if_neg hs'.initialized_ne, hp, hn, hbuf, if_pos (hf env),
      if_pos (hf' env)]

/-- A name that was not there, and is not. -/
theorem EntryKept.absent (hs : Settled (view s)) (hs' : Settled (view s'))
    (hd : ((view s).inode p).isDir = true) (hd' : ((view s').inode p).isDir = true)
    (hf : findEntryInDir env s p name = 0) (hf' : findEntryInDir env s' p name = 0) :
    EntryKept s p name s' := by
  have hout := absent_of_find hs hd hf
  have hout' := absent_of_find hs' hd' hf'
  refine ⟨?_, fun e he hn => absurd hn (hout e he), ?_⟩
  · exact fun e hn => iff_of_false (fun he => hout' e he hn) (fun he => hout e he hn)
  · exact sameFile_absent hs hs' (find_absent hs hd hout) (find_absent hs' hd' hout')

theorem not_entryKept_removed (h : FileRemoved env s q e b buf s₂)
    (hf : findEntryInDir env s' q.parent q.name = 0) (hs' : Settled (view s'))
    (hd' : ((view s').inode q.parent).isDir = true) : ¬ EntryKept s q.parent q.name s' := by
  intro hkept
  have he := (hkept.entry e h.name_eq).mpr h.entry
  exact absent_of_find hs' hd' hf e he h.name_eq

/-! ## The copy is made -/

section Made

variable {n : ℕ} {P : List ℕ} {x : EXT2Inode} {v₃ : Volume}

/-- Under a new name. -/
theorem copyMade_fresh (h : Written s w n P x v₃ s') (hk' : Packed (view s'))
    (he : FileEntry s w.parent e) (hc : Carries s e.inode w) (hlen : w.name.len ≠ 0) :
    CopyMade s w.parent e.name w.name s' ↔
      Reproduced s e.inode w s.group0.bg_free_blocks_count.toNat := by
  have hcopy := he.sameFile_iff (written_fileEntry h hk' hc.kind hlen)
  have hiff := stocked_sameContent_iff h.stocked hc
  constructor
  · rintro ⟨hdst, -⟩
    exact hiff.mp (hcopy.mp hdst)
  · intro hrep
    have hsame := hiff.mpr hrep
    have hne : e.inode ≠ w.parent := by
      intro heq
      have hfile := he.file
      rw [heq, h.parent.2] at hfile
      cases hfile
    have hsrc := written_source h he.packed hne (.refl _ _) hsame
    refine ⟨hcopy.mpr hsame, fun _ => ?_⟩
    have he' : FileEntry s' w.parent e := ⟨h.after, hk', h.allocatedDir.2,
      written_mem h h.parent he.mem, written_file h hc.kind he.file, he.name⟩
    exact (he.sameFile_iff he').mpr hsrc

/-- What becomes of the content of the source `a`, when the file `d` is removed
and the copy written. -/
theorem source_replaced_iff {a : ℕ} (hrem : FileRemoved env s (removal w) d b buf s₂)
    (hk : Packed (view s)) (hk₂ : Packed (view s₂)) (h : Written s₂ w n P x v₃ s')
    (hfile : (inodeAt s a).isDir = false) (hcopy : SameContent s a s' n) :
    SameContent s a s' a ↔
      (a = d.inode → (inodeAt s a).i_size = 0 ∨ FullBelow s a) := by
  have hap : a ≠ w.parent := by
    rintro rfl
    have hdir : (inodeAt s w.parent).isDir = true := hrem.parent.2
    rw [hfile] at hdir
    cases hdir
  by_cases had : a = d.inode
  · have htaken := stored_eq_iff hrem h.stored
    rw [← had] at htaken
    by_cases han : a = n
    · -- the copy takes the inode that has been given back
      rw [← han] at hcopy
      exact iff_of_true hcopy fun _ => Or.inr (htaken.mp han.symm)
    · have hzero : inodeAt s' a = EXT2Inode.zero := by
        rw [show inodeAt s' a = inodeAt s₂ a from (h.untouched han hap).inode, had,
          fileRemoved_inode hrem]
      constructor
      · intro hsame _
        have hsize := hsame.size
        rw [hzero] at hsize
        exact Or.inl hsize.symm
      · intro hcond
        have hsize := (hcond had).resolve_right fun hfull => han (htaken.mpr hfull).symm
        -- nothing is stored of an empty file
        have hlen := fileLength_le s a
        have hlen' := fileLength_le s' a
        rw [hzero] at hlen'
        rw [hsize] at hlen
        have h0 : fileLength s a = 0 := Nat.le_zero.mp hlen
        have h0' : fileLength s' a = 0 := Nat.le_zero.mp hlen'
        refine ⟨?_, h0'.trans h0.symm, fun k hk => absurd hk (by omega)⟩
        rw [hzero, hsize]
        rfl
  · have hsame : SameContent s a s₂ a :=
      (fileRemoved_untouched hrem had hap).sameContent hrem.before hk hrem.after
    exact iff_of_true (written_source h hk₂ hap hsame hcopy) (fun heq => absurd heq had)

/-- In the place of the file `d`. -/
theorem copyMade_replaced (hrem : FileRemoved env s (removal w) d b buf s₂)
    (hk₂ : Packed (view s₂)) (h : Written s₂ w n P x v₃ s') (hk' : Packed (view s'))
    (he : FileEntry s w.parent e) (hc : Carries s e.inode w) (hlen : w.name.len ≠ 0)
    (hrep : Replaceable s w d.inode) :
    CopyMade s w.parent e.name w.name s' ↔
      ReplaceSafe s e.inode d.inode w (w.name = e.name) := by
  have hcopy := he.sameFile_iff (written_fileEntry h hk' hc.kind hlen)
  have hiff := stocked_sameContent_iff h.stocked hc
  rw [show (view s₂).freeBlocks = s.group0.bg_free_blocks_count.toNat +
    (inodeAt s d.inode).i_blocks.toNat from hrem.freeBlocks_eq] at hiff
  -- the entry of the source stays, unless it is the target
  have hsrc : w.name ≠ e.name → FileEntry s' w.parent e := by
    intro hne
    have hed : e ≠ d := by
      rintro rfl
      exact hne hrem.name_eq.symm
    exact ⟨h.after, hk', h.allocatedDir.2,
      written_mem h h.parent (fileRemoved_mem hrem hrem.parent he.mem fun _ => hed),
      written_file h hc.kind (fileRemoved_file hrem he.file), he.name⟩
  constructor
  · rintro ⟨hdst, hkept⟩
    have hsame := hcopy.mp hdst
    refine ⟨hrep, hiff.mp hsame, ?_⟩
    intro hne
    exact (source_replaced_iff hrem he.packed hk₂ h he.file hsame).mp
      ((he.sameFile_iff (hsrc hne)).mp (hkept hne))
  · rintro ⟨-, hstored, halias⟩
    have hsame := hiff.mpr hstored
    refine ⟨hcopy.mpr hsame, ?_⟩
    intro hne
    apply (he.sameFile_iff (hsrc hne)).mpr
    exact (source_replaced_iff hrem he.packed hk₂ h he.file hsame).mpr (halias hne)

end Made

/-! ## All or nothing, exactly -/

theorem fileAt_unique {a : ℕ} (hs : Settled (view s)) (hd : ((view s).inode p).isDir = true)
    (he : e ∈ (view s).dirEntries p) (hen : e.name = name) (ha : FileAt s p name a) :
    a = e.inode := by
  obtain ⟨⟨c, hc, hname, rfl⟩, -⟩ := ha
  rw [List.inj_on_of_nodup_map (hs.names _ hd) hc he (hname.trans hen.symm)]

/-- Case by case over what becomes of the target. -/
theorem overwrite_safe_iff (hout : Overwrite env s w ret) (hs : Settled (view s))
    (hp : AllocatedDir s w.parent) (he : FileEntry s w.parent e) (hc : Carries s e.inode w)
    (hlen : w.name.len ≠ 0) :
    ((ret.1 = 0 → CopyMade s w.parent e.name w.name ret.2) ∧
      (ret.1 ≠ 0 → EntryKept s w.parent w.name ret.2)) ↔
    FreshSafe env s e.inode w ∧
      ∀ b, FileAt s w.parent w.name b → ReplaceSafe s e.inode b w (w.name = e.name) := by
  cases hout with
  | refused hf hacc hcode =>
      have habsent : ∀ b, ¬ FileAt s w.parent w.name b := by
        rintro b ⟨⟨c, hc, hname, -⟩, -⟩
        exact absent_of_find hs hp.2 hf c hc hname
      have hs' : Settled (view (write env s w).2) := hs.write hp
      have hd' := (congrArg EXT2Inode.isDir (write_fails hs hp hcode hp.1).inode).trans hp.2
      have hkept := EntryKept.absent hs hs' hp.2 hd' hf (write_fails_find hs hp hcode hf env)
      exact iff_of_true ⟨fun h0 => absurd h0 hcode, fun _ => hkept⟩
        ⟨fun h => absurd h hacc, fun b hb => absurd hb (habsent b)⟩
  | fresh hf hacc h hk' =>
      have habsent : ∀ b, ¬ FileAt s w.parent w.name b := by
        rintro b ⟨⟨c, hc, hname, -⟩, -⟩
        exact absent_of_find hs hp.2 hf c hc hname
      have hiff := copyMade_fresh h hk' he hc hlen
      constructor
      · rintro ⟨hmade, -⟩
        exact ⟨fun _ => hiff.mp (hmade rfl), fun b hb => absurd hb (habsent b)⟩
      · rintro ⟨hsafe, -⟩
        exact ⟨fun _ => hiff.mpr (hsafe hacc), fun h0 => absurd rfl h0⟩
  | directory hd hdn hdir =>
      have hno : ∀ b, ¬ FileAt s w.parent w.name b := by
        intro b hb
        have hfile := hb.2
        rw [fileAt_unique hs hp.2 hd hdn hb, hdir] at hfile
        cases hfile
      have hfound := find_present hs hp.2 hd env
      rw [hdn] at hfound
      exact iff_of_true ⟨fun h0 => absurd h0 (one_ne_zero (α := ℤ)), fun _ => .refl ..⟩
        ⟨fun hacc => absurd hacc.1 hfound, fun b hb => absurd hb (hno b)⟩
  | lost hrem _ hrep hcode =>
      have hp₂ := hrem.allocatedDir
      have hf := write_fails_find (r := w) hrem.after hp₂ hcode (hrem.name_gone env) env
      have hs' : Settled (view (write env _ w).2) := hrem.after.write hp₂
      have hd' := (congrArg EXT2Inode.isDir
        (write_fails (r := w) hrem.after hp₂ hcode hp₂.1).inode).trans hp₂.2
      have hlost := not_entryKept_removed hrem hf hs' hd'
      have hat : FileAt s w.parent w.name _ := ⟨⟨_, hrem.entry, hrem.name_eq, rfl⟩, hrem.file⟩
      constructor
      · rintro ⟨-, hkept⟩
        exact absurd (hkept hcode) hlost
      · rintro ⟨-, hsafe⟩
        exact absurd (hsafe _ hat).1 hrep
  | replaced hrem hk₂ hrep h hk' =>
      have hiff := copyMade_replaced hrem hk₂ h hk' he hc hlen hrep
      have hname := hrem.name_eq
      have hentry := hrem.entry
      have hat : FileAt s w.parent w.name _ := ⟨⟨_, hentry, hname, rfl⟩, hrem.file⟩
      have hfound := find_present hs hp.2 hentry env
      rw [hname] at hfound
      constructor
      · rintro ⟨hmade, -⟩
        refine ⟨fun hacc => absurd hacc.1 hfound, ?_⟩
        intro b hb
        rw [fileAt_unique hs hp.2 hentry hname hb]
        exact hiff.mp (hmade rfl)
      · rintro ⟨-, hsafe⟩
        exact ⟨fun _ => hiff.mpr (hsafe _ hat), fun h0 => absurd rfl h0⟩

theorem cmdCp_unfetched (hsrc : src.len ≠ 0) (hdst : dst.len ≠ 0)
    (h : ∀ size buf, fetch env sh s src ≠ .fetched size buf) :
    (cmdCp env sh s src dst).1 ≠ .copied ∧ (cmdCp env sh s src dst).2.2 = s := by
  unfold cmdCp
  rw [if_neg (not_or.mpr ⟨hsrc, hdst⟩)]
  generalize fetch env sh s src = res at h ⊢
  cases res with
  | noSource => exact ⟨CpReport.noConfusion, rfl⟩
  | tooLarge => exact ⟨CpReport.noConfusion, rfl⟩
  | unreadable buf => exact ⟨CpReport.noConfusion, rfl⟩
  | fetched size buf => exact absurd rfl (h size buf)

theorem cmdCp_fetched {size : BitVec 32} {file : ℕ → BitVec 8} (hsrc : src.len ≠ 0)
    (hdst : dst.len ≠ 0) (h : fetch env sh s src = .fetched size file) :
    cmdCp env sh s src dst =
      (if (writeOver env s (fileRequest file dst sh.current_dir_inode size)).1 = 0 then .copied
        else .failed,
        { sh with file_buffer := file },
        (writeOver env s (fileRequest file dst sh.current_dir_inode size)).2) := by
  unfold cmdCp
  rw [if_neg (not_or.mpr ⟨hsrc, hdst⟩), h]

/-- **`cp` is all or nothing** exactly when the copy fits: a new target is stored
as far as the source is, an old one can be replaced and then is. -/
theorem cp_all_or_nothing_iff (h : Reachable OnDirectory s) (hd : AllocatedDir s sh.dir)
    (hsrc : src.len ≠ 0) (hdst : dst.len ≠ 0) :
    AllOrNothing env sh s src dst ↔ CopySafe env sh s src dst := by
  have hs : Settled (view s) := reachable_settled h
  have hk := reachable_packed h
  rcases fetch_outcome env hs hk hd hsrc with
    ⟨e, file, he, rfl, hfetch, hcarries⟩ | ⟨hlarge, hfetch⟩
  · have hc := hcarries dst sh.current_dir_inode
    have hp : AllocatedDir s (fileRequest file dst sh.current_dir_inode
      (inodeAt s e.inode).i_size).parent := hd
    have hout := writeOver_outcome env hs hk hp rfl hdst hc.dataBlocks_le
    have hiff := overwrite_safe_iff hout hs hp he hc hdst
    have hcp := cmdCp_fetched hsrc hdst hfetch
    generalize writeOver env s (fileRequest file dst sh.current_dir_inode
      (inodeAt s e.inode).i_size) = ret at hiff hcp
    have hreport : (cmdCp env sh s e.name dst).1 = .copied ↔ ret.1 = 0 := by
      rw [hcp]
      by_cases hcode : ret.1 = 0
      · exact iff_of_true (if_pos hcode) hcode
      · refine iff_of_false ?_ hcode
        rw [if_neg hcode]
        exact CpReport.noConfusion
    have hall : AllOrNothing env sh s e.name dst ↔
        (ret.1 = 0 → CopyMade s sh.dir e.name dst ret.2) ∧
          (ret.1 ≠ 0 → EntryKept s sh.dir dst ret.2) := by
      unfold AllOrNothing
      dsimp only
      rw [ne_eq, hreport, hcp]
    refine hall.trans (hiff.trans ?_)
    constructor
    · intro hsafe a ha _
      rw [fileAt_unique hs hd.2 he.mem rfl ha]
      exact hsafe
    · intro hsafe
      exact hsafe e.inode ⟨⟨e, he.mem, rfl, rfl⟩, he.file⟩ hc.small
  · obtain ⟨hreport, hstate⟩ : (cmdCp env sh s src dst).1 ≠ .copied ∧
      (cmdCp env sh s src dst).2.2 = s := cmdCp_unfetched hsrc hdst hfetch
    constructor
    · intro _ a ha hsmall
      exact absurd hsmall (not_le.mpr (hlarge a ha))
    · intro _
      refine ⟨fun h0 => absurd h0 hreport, fun _ => ?_⟩
      rw [hstate]
      exact .refl s sh.dir dst

/-! ## A copy that loses its target -/

/-- A name of 127 bytes that starts with the letter `k`. -/
def wideName (k : ℕ) : EntryName :=
  ⟨BitVec.ofNat 8 (0x41 + k) :: List.replicate 126 0x61, by
    rw [List.length_cons, List.length_replicate]
    decide⟩

theorem wideName_len (k : ℕ) : (wideName k).len = 127 := by
  rw [EntryName.len, wideName, List.length_cons, List.length_replicate]

theorem wideName_proper (k : ℕ) : (wideName k).Proper := by
  have hlen := wideName_len k
  constructor <;> intro h <;> rw [h] at hlen <;> cases hlen

theorem wideName_ne (k : ℕ) : (wideName k).len ≠ 0 := by
  rw [wideName_len]
  decide

/-- Three empty files for each of the twelve blocks of the root directory. -/
def packedRoot : List Call := (List.range 36).map fun k => .write (.file 2 (wideName k) [])

theorem packedRoot_reachable : Reachable TreeCall (runCalls packedRoot freshFs) := by
  apply reachable_onRoot (Reachable.fresh TreeCall)
  intro c hc
  obtain ⟨k, hk, rfl⟩ := List.mem_map.mp hc
  exact ⟨rfl, wideName_proper k⟩

theorem packedRoot_settled :
    Reachable OnDirectory (runCalls packedRoot freshFs) ∧
      AllocatedDir (runCalls packedRoot freshFs) Statics.start.dir := by
  obtain ⟨held, htree⟩ := reachable_tree packedRoot_reachable
  exact ⟨packedRoot_reachable.mono fun s c hc => hc.1, htree.intact.root⟩

/-- The fourth file has the first record of the second block. -/
theorem packedRoot_copy :
    findEntryInDir .zero (runCalls packedRoot freshFs) 2 (wideName 3) = 15 ∧
      (cmdCp .zero .start (runCalls packedRoot freshFs) (wideName 0) (wideName 3)).1 = .failed ∧
      findEntryInDir .zero
        (cmdCp .zero .start (runCalls packedRoot freshFs) (wideName 0) (wideName 3)).2.2 2
        (wideName 3) = 0 := by
  decide +kernel

theorem packedRoot_not_kept :
    ¬ AllOrNothing .zero .start (runCalls packedRoot freshFs) (wideName 0) (wideName 3) := by
  obtain ⟨hfind, hreport, hgone⟩ := packedRoot_copy
  obtain ⟨hreach, hroot⟩ := packedRoot_settled
  have hs := reachable_settled hreach
  generalize runCalls packedRoot freshFs = s at *
  rintro ⟨-, hkept⟩
  have hfound : findEntryInDir .zero s Statics.start.dir (wideName 3) ≠ 0 := by
    rw [show findEntryInDir .zero s Statics.start.dir (wideName 3) = 15 from hfind]
    decide
  obtain ⟨e, he, hname, -⟩ := hs.found_entry hroot.2 hfound
  have hbefore := hs.stat_entry .zero hroot.2 he false
  have hsame := (hkept (by rw [hreport]; exact CpReport.noConfusion)).file.stat .zero
  apply stat_absent hgone
  rw [hname, if_neg (by simpa using wideName_ne 3)] at hbefore
  exact congrArg Prod.fst (hsame.trans hbefore)

/-- The fourth file is deleted, and the copy has no room: the record that leads
its block is not used again. -/
theorem cp_loses_target :
    Reachable OnDirectory (runCalls packedRoot freshFs) ∧
      AllocatedDir (runCalls packedRoot freshFs) Statics.start.dir ∧
      (wideName 0).len ≠ 0 ∧ (wideName 3).len ≠ 0 ∧
      ¬ AllOrNothing .zero .start (runCalls packedRoot freshFs) (wideName 0) (wideName 3) :=
  ⟨packedRoot_settled.1, packedRoot_settled.2, wideName_ne 0, wideName_ne 3, packedRoot_not_kept⟩

/-- The condition fails there. -/
theorem cp_packedRoot :
    ¬ CopySafe .zero .start (runCalls packedRoot freshFs) (wideName 0) (wideName 3) := by
  intro hsafe
  apply packedRoot_not_kept
  exact (cp_all_or_nothing_iff packedRoot_settled.1 packedRoot_settled.2 (wideName_ne 0)
    (wideName_ne 3)).mpr hsafe

end RendangOS.Shell
