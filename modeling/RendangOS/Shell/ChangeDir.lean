import RendangOS.Shell.Listing
import RendangOS.Shell.Move

/-!
# `cd`

`cmd_cd` and `is_directory` look a name up in `dir_buffer`, the kernel looks it up
in all blocks of the directory. The loop of `cmd_cd` is that of `cmd_ls`: it does
not get behind an emptied record, and goes on in old bytes where there is none.
-/

namespace RendangOS.Shell

open Ext2 Image RecordChain Assoc

/-! ## `cmd_cd` -/

/-- The statics with the path in the prompt. -/
structure Session extends Statics where
  cwd : Text

/-- What `cmd_cd` does, with the message it prints. -/
inductive CdReport where
  /-- Without an argument, or to `"/"`. -/
  | root
  /-- To the inode of `".."`. -/
  | up
  /-- Nothing, on `".."`. -/
  | stayed
  /-- `"cd: Cannot read directory"` -/
  | unreadable
  | entered
  /-- `"cd: Not a directory: "` -/
  | notDirectory
  /-- `"cd: No such directory: "` -/
  | noDirectory
deriving DecidableEq

/-- `cwd` after a step into directory `path`. -/
def cwdAppend (cwd : Text) (path : EntryName) : Text :=
  (if cwd = slash then cwd else cwd ++ slash) ++ path.bytes

def cmdCd (env : Env) (sh : Session) (s : Fs) (path : EntryName) : CdReport × Session :=
  if path.len = 0 ∨ path.bytes = slash then
    (.root, { sh with current_dir_inode := 2, cwd := slash })
  else if path = .dotdot then
    if sh.current_dir_inode ≠ 2 then
      let ret := readDirectory env s (dirRequest sh.dir_buffer sh.current_dir_inode)
      let sh := { sh with dir_buffer := ret.2 }
      if ret.1 = 0 then
        match lookup DirEntry.name (listedFrom sh.dir_buffer 0) .dotdot with
        | none => (.stayed, sh)
        | some e =>
            let sh := { sh with current_dir_inode := BitVec.ofNat 32 e.inode }
            (.up, if sh.current_dir_inode = 2 then { sh with cwd := slash } else sh)
      else (.stayed, sh)
    else (.stayed, sh)
  else
    let ret := readDirectory env s (dirRequest sh.dir_buffer sh.current_dir_inode)
    let sh := { sh with dir_buffer := ret.2 }
    if ret.1 ≠ 0 then (.unreadable, sh)
    else
      match lookup DirEntry.name (listedFrom sh.dir_buffer 0) path with
      | none => (.noDirectory, sh)
      | some e =>
          if e.fileType = ext2FtDir then
            (.entered, { sh with
              current_dir_inode := BitVec.ofNat 32 e.inode
              cwd := cwdAppend sh.cwd path })
          else (.notDirectory, sh)

/-! ## What the lookups should do -/

/-- The kernel finds `name` in directory `p`, and inode `i` there is a directory. -/
def FindsDir (env : Env) (s : Fs) (p : ℕ) (name : EntryName) (i : ℕ) : Prop :=
  findEntryInDir env s p name = i ∧ (inodeAt s i).isDir = true

/-- `cmd_cd` and `is_directory` go by what the kernel finds. -/
structure LookupsAgree (env : Env) (sh : Session) (s : Fs) (name : EntryName) : Prop where
  cd : ∀ i, ((cmdCd env sh s name).1 = .entered ∧ (cmdCd env sh s name).2.dir = i) ↔
    FindsDir env s sh.dir name i
  is_directory : ∀ i ≠ 0, (isDirectory env sh.toStatics s name).1 = i ↔
    FindsDir env s sh.dir name i

/-! ## When they do -/

/-- A directory of that name has its entry where the loops get to, and if there is no
entry of the name, they do not meet a directory of that name in old bytes. -/
structure LookupSafe (s : Fs) (p : ℕ) (mem : Memory) (name : EntryName) : Prop where
  reached : ∀ e ∈ cutEntries s p ++ hiddenEntries s p, e.name = name → e.fileType ≠ ext2FtDir
  clean : (∀ e ∈ (view s).dirEntries p, e.name ≠ name) →
    ∀ e, lookup DirEntry.name (leftEntries s p mem) name = some e → e.fileType ≠ ext2FtDir

variable {env : Env} {sh : Session} {s : Fs} {p i : ℕ} {mem : Memory} {e : DirEntry}
  {name : EntryName}

/-! ## The loop of `cmd_cd` -/

/-- The entry that `cmd_cd` finds. -/
def cdEntry (s : Fs) (p : ℕ) (mem : Memory) (name : EntryName) : Option DirEntry :=
  lookup DirEntry.name (reachedEntries s p ++ leftEntries s p mem) name

theorem cmdCd_name (hs : Settled (view s)) (hd : AllocatedDir s sh.dir) (env : Env)
    (hlen : name.len ≠ 0) (hslash : name.bytes ≠ slash) (hup : name ≠ .dotdot) :
    cmdCd env sh s name =
      match cdEntry s sh.dir sh.dir_buffer name with
      | none => (.noDirectory, { sh with dir_buffer := overlay s sh.dir sh.dir_buffer })
      | some e =>
          if e.fileType = ext2FtDir then
            (.entered, { sh with
              dir_buffer := overlay s sh.dir sh.dir_buffer
              current_dir_inode := BitVec.ofNat 32 e.inode
              cwd := cwdAppend sh.cwd name })
          else (.notDirectory, { sh with dir_buffer := overlay s sh.dir sh.dir_buffer }) := by
  unfold cmdCd cdEntry
  rw [if_neg (not_or.mpr ⟨hlen, hslash⟩), if_neg hup,
    readDirectory_dir hs hd.2 env sh.dir_buffer (show _ = sh.dir from rfl)]
  dsimp only
  rw [if_neg (by decide), listedFrom_overlay hs hd.2]

/-- The inode number of what `cmd_cd` finds is the one it goes to. -/
theorem cdEntry_inode (hs : Settled (view s)) (hd : ((view s).inode p).isDir = true)
    (hentry : cdEntry s p mem name = some e) : (BitVec.ofNat 32 e.inode).toNat = e.inode := by
  have he := (mem_of_lookup hentry).1
  rw [← listedFrom_overlay hs hd] at he
  rw [BitVec.toNat_ofNat]
  exact Nat.mod_eq_of_lt (listedFrom_inode_lt he)

theorem cmdCd_stayed (env : Env) (hroot : sh.current_dir_inode = 2) :
    cmdCd env sh s .dotdot = (.stayed, sh) := by
  unfold cmdCd
  rw [if_neg (by decide), if_pos rfl, if_neg (not_not.mpr hroot)]

/-- `cd ..` below the root directory. -/
theorem cmdCd_up (hs : Settled (view s)) (hd : AllocatedDir s sh.dir) (env : Env)
    (hroot : sh.current_dir_inode ≠ 2) :
    cmdCd env sh s .dotdot =
      match cdEntry s sh.dir sh.dir_buffer .dotdot with
      | none => (.stayed, { sh with dir_buffer := overlay s sh.dir sh.dir_buffer })
      | some e =>
          (.up,
            if BitVec.ofNat 32 e.inode = 2 then { sh with
              dir_buffer := overlay s sh.dir sh.dir_buffer
              current_dir_inode := BitVec.ofNat 32 e.inode
              cwd := slash }
            else { sh with
              dir_buffer := overlay s sh.dir sh.dir_buffer
              current_dir_inode := BitVec.ofNat 32 e.inode }) := by
  unfold cmdCd cdEntry
  rw [if_neg (by decide), if_pos rfl, if_pos hroot,
    readDirectory_dir hs hd.2 env sh.dir_buffer (show _ = sh.dir from rfl)]
  dsimp only
  rw [if_pos rfl, listedFrom_overlay hs hd.2]

theorem cd_entered_iff (hs : Settled (view s)) (hd : AllocatedDir s sh.dir) (env : Env)
    (hlen : name.len ≠ 0) (hslash : name.bytes ≠ slash) (hup : name ≠ .dotdot) :
    ((cmdCd env sh s name).1 = .entered ∧ (cmdCd env sh s name).2.dir = i) ↔
      ∃ e, cdEntry s sh.dir sh.dir_buffer name = some e ∧ e.fileType = ext2FtDir ∧
        (BitVec.ofNat 32 e.inode).toNat = i := by
  rw [cmdCd_name hs hd env hlen hslash hup]
  cases hentry : cdEntry s sh.dir sh.dir_buffer name with
  | none =>
      constructor
      · rintro ⟨hno, -⟩
        cases hno
      · rintro ⟨e, he, -⟩
        cases he
  | some e =>
      by_cases hdir : e.fileType = ext2FtDir
      · dsimp only
        rw [if_pos hdir]
        constructor
        · rintro ⟨-, hi⟩
          exact ⟨e, rfl, hdir, hi⟩
        · rintro ⟨e', he', -, hi⟩
          cases he'
          exact ⟨rfl, hi⟩
      · dsimp only
        rw [if_neg hdir]
        constructor
        · rintro ⟨hno, -⟩
          cases hno
        · rintro ⟨e', he', hdir', -⟩
          cases he'
          exact absurd hdir' hdir

/-- An entry of the directory is found, or it lies behind the end of the loop and
nothing of its name is found. -/
theorem cdEntry_mem (hs : Settled (view s)) (hd : ((view s).inode p).isDir = true)
    (he : e ∈ (view s).dirEntries p) (mem : Memory) :
    (e ∈ reachedEntries s p ∧ cdEntry s p mem e.name = some e) ∨
      (e ∈ cutEntries s p ++ hiddenEntries s p ∧ cdEntry s p mem e.name = none) := by
  have hnames := hs.names p hd
  rw [← reached_cut_hidden] at he hnames
  rw [List.map_append] at hnames
  obtain ⟨hreached, -, hdisj⟩ := List.nodup_append.mp hnames
  rcases List.mem_append.mp he with hin | hout
  · left
    refine ⟨hin, ?_⟩
    rw [cdEntry, lookup_append, lookup_of_mem hreached hin]
    rfl
  · right
    refine ⟨hout, ?_⟩
    have hleft : leftEntries s p mem = [] := by
      rcases leftEntries_cases s p mem with hnil | ⟨hcut, hhidden⟩
      · exact hnil
      · rw [hcut, hhidden] at hout
        cases hout
    rw [cdEntry, hleft, List.append_nil, lookup_eq_none]
    intro hin
    exact hdisj _ hin _ (List.mem_map_of_mem hout) rfl

/-- Where no entry has the name, only old bytes can. -/
theorem cdEntry_absent (hname : ∀ e ∈ (view s).dirEntries p, e.name ≠ name) (mem : Memory) :
    cdEntry s p mem name = lookup DirEntry.name (leftEntries s p mem) name := by
  have hreached : lookup DirEntry.name (reachedEntries s p) name = none := by
    rw [lookup_eq_none]
    intro hin
    obtain ⟨e, he, heq⟩ := List.mem_map.mp hin
    refine hname e ?_ heq
    rw [← reached_cut_hidden]
    exact List.mem_append_left _ he
  rw [cdEntry, lookup_append, hreached]
  rfl

/-! ## The loop of `is_directory` -/

theorem isDirectory_absent (hfind : findEntryInDir env s sh.dir name = 0) :
    (isDirectory env sh.toStatics s name).1 = 0 := by
  unfold isDirectory
  dsimp only
  rw [if_neg fun h => stat_absent hfind h.1]

/-- `stat` answers first. -/
theorem isDirectory_entry (hs : Settled (view s)) (hd : AllocatedDir s sh.dir) (env : Env)
    (he : e ∈ (view s).dirEntries sh.dir) (hlen : e.name.len ≠ 0) :
    (isDirectory env sh.toStatics s e.name).1 =
      if (inodeAt s e.inode).isDir = true then
        (((shownEntries s sh.dir ++ staleEntries s sh.dir sh.dir_buffer).find? fun e' =>
          decide (e'.name = e.name ∧ e'.fileType = ext2FtDir)).map DirEntry.inode).getD 0
      else 0 := by
  unfold isDirectory
  dsimp only
  rw [hs.stat_entry env hd.2 he, if_neg (not_or.mpr ⟨Bool.false_ne_true, hlen⟩)]
  by_cases hdir : (inodeAt s e.inode).isDir = true
  · rw [if_pos ⟨rfl, hdir⟩, if_pos hdir,
      readDirectory_dir hs hd.2 env sh.dir_buffer (show _ = sh.dir from rfl)]
    dsimp only
    rw [if_pos rfl, entriesFrom_overlay hs hd.2]
  · rw [if_neg fun h => hdir h.2, if_neg hdir]

/-- A hidden entry leaves no old bytes in the buffer. -/
theorem staleEntries_eq_nil (h : hiddenEntries s p ≠ []) (mem : Memory) :
    staleEntries s p mem = [] := by
  have hfull : ¬ (shownBlocks s p).length < 8 := fun hroom => h (hiddenEntries_eq_nil hroom)
  apply entriesFrom_of_ge
  rw [dirBufferSize, blockSize]
  omega

/-- The entry of a directory is found where it is shown, and only there. -/
theorem isDirectory_dir (hs : Settled (view s)) (hd : AllocatedDir s sh.dir) (env : Env)
    (he : e ∈ (view s).dirEntries sh.dir) (hlen : e.name.len ≠ 0)
    (hdir : (inodeAt s e.inode).isDir = true) (htype : e.fileType = ext2FtDir) :
    (e ∈ shownEntries s sh.dir → (isDirectory env sh.toStatics s e.name).1 = e.inode) ∧
      (e ∈ hiddenEntries s sh.dir → (isDirectory env sh.toStatics s e.name).1 = 0) := by
  have hnames := hs.names sh.dir hd.2
  rw [isDirectory_entry hs hd env he hlen, if_pos hdir]
  constructor
  · intro hin
    have hfind : (shownEntries s sh.dir).find?
        (fun e' => decide (e'.name = e.name ∧ e'.fileType = ext2FtDir)) = some e := by
      cases hres : (shownEntries s sh.dir).find?
          (fun e' => decide (e'.name = e.name ∧ e'.fileType = ext2FtDir)) with
      | none =>
          exact absurd (decide_eq_true ⟨rfl, htype⟩) (List.find?_eq_none.mp hres e hin)
      | some e' =>
          have hmem : e' ∈ (view s).dirEntries sh.dir := by
            rw [← shown_hidden]
            exact List.mem_append_left _ (List.mem_of_find?_eq_some hres)
          have hok := List.find?_some hres
          rw [decide_eq_true_iff] at hok
          rw [List.inj_on_of_nodup_map hnames hmem he hok.1]
    rw [List.find?_append, hfind]
    rfl
  · intro hout
    have hstale := staleEntries_eq_nil (List.ne_nil_of_mem hout) sh.dir_buffer
    rw [← shown_hidden, List.map_append] at hnames
    have hdisj := (List.nodup_append.mp hnames).2.2
    have hfind : (shownEntries s sh.dir).find?
        (fun e' => decide (e'.name = e.name ∧ e'.fileType = ext2FtDir)) = none := by
      rw [List.find?_eq_none]
      intro e' hin hok
      exact hdisj _ (List.mem_map_of_mem hin) _ (List.mem_map_of_mem hout)
        (of_decide_eq_true hok).1
    rw [hstale, List.append_nil, hfind]
    rfl

/-! ## Agreement -/

theorem findsDir_absent (hs : Settled (view s)) (hd : ((view s).inode p).isDir = true)
    (hname : ∀ e ∈ (view s).dirEntries p, e.name ≠ name) : ¬ FindsDir env s p name i := by
  rintro ⟨hfind, hdir⟩
  rw [find_absent hs hd hname env] at hfind
  exact (isSlot_of_isDir hdir).ne_zero hfind.symm

theorem findsDir_entry (hs : Settled (view s)) (hd : ((view s).inode p).isDir = true)
    (he : e ∈ (view s).dirEntries p) :
    FindsDir env s p e.name i ↔ e.inode = i ∧ (inodeAt s e.inode).isDir = true := by
  unfold FindsDir
  rw [hs.find_entry env hd he]
  refine and_congr_right ?_
  rintro rfl
  rfl

/-- **Shell and kernel lookups agree** on a name just when a directory of that name
is reached, and none is met in old bytes. -/
theorem lookups_agree_iff (h : Reachable ProperCall s) (hd : AllocatedDir s sh.dir) (env : Env)
    (hlen : name.len ≠ 0) (hslash : name.bytes ≠ slash) (hup : name ≠ .dotdot) :
    LookupsAgree env sh s name ↔ LookupSafe s sh.dir sh.dir_buffer name := by
  have hs : Settled (view s) := reachable_settled (h.mono fun _ _ hc => hc.onDirectory)
  have hcd : ∀ i, ((cmdCd env sh s name).1 = .entered ∧ (cmdCd env sh s name).2.dir = i) ↔
      ∃ e, cdEntry s sh.dir sh.dir_buffer name = some e ∧ e.fileType = ext2FtDir ∧
        (BitVec.ofNat 32 e.inode).toNat = i := fun _ => cd_entered_iff hs hd env hlen hslash hup
  by_cases hname : ∀ e ∈ (view s).dirEntries sh.dir, e.name ≠ name
  · -- no entry of that name: `cmd_cd` must not enter anything
    have hno : ∀ i, ¬ FindsDir env s sh.dir name i := fun i => findsDir_absent hs hd.2 hname
    rw [cdEntry_absent hname] at hcd
    constructor
    · intro hagree
      refine ⟨?_, fun _ e he hdir => ?_⟩
      · intro e he heq
        refine absurd heq (hname e ?_)
        rw [← reached_cut_hidden]
        exact List.mem_append_right _ he
      · exact hno _ ((hagree.cd _).mp ((hcd _).mpr ⟨e, he, hdir, rfl⟩))
    · intro hsafe
      refine ⟨fun i => ?_, fun i hi => ?_⟩
      · rw [hcd]
        refine iff_of_false ?_ (hno i)
        rintro ⟨e, he, hdir, -⟩
        exact hsafe.clean hname e he hdir
      · rw [isDirectory_absent (find_absent hs hd.2 hname env)]
        exact iff_of_false (Ne.symm hi) (hno i)
  · push Not at hname
    obtain ⟨e, he, rfl⟩ := hname
    have hkind : e.fileType = ext2FtDir ↔ (inodeAt s e.inode).isDir = true :=
      reachable_fileType h hd.2 he hup
    have hfinds : ∀ i, FindsDir env s sh.dir e.name i ↔
        e.inode = i ∧ (inodeAt s e.inode).isDir = true := fun _ => findsDir_entry hs hd.2 he
    have hunique : ∀ e' ∈ (view s).dirEntries sh.dir, e'.name = e.name → e' = e :=
      fun e' he' heq => List.inj_on_of_nodup_map (hs.names _ hd.2) he' he heq
    have hword : (BitVec.ofNat 32 e.inode).toNat = e.inode := (hs.target_slot hd.2 he).word
    have hfile : ¬ (inodeAt s e.inode).isDir = true →
        (isDirectory env sh.toStatics s e.name).1 = 0 := fun hfile => by
      rw [isDirectory_entry hs hd env he hlen, if_neg hfile]
    have hpresent : ¬ ∀ e' ∈ (view s).dirEntries sh.dir, e'.name ≠ e.name := fun hno =>
      hno e he rfl
    rcases cdEntry_mem hs hd.2 he sh.dir_buffer with ⟨hin, hentry⟩ | ⟨hout, hentry⟩
    · -- all three find the entry
      refine iff_of_true ⟨fun i => ?_, fun i hi => ?_⟩
        ⟨fun e' he' heq => ?_, fun hno => absurd hno hpresent⟩
      · rw [hcd, hentry, hfinds, ← hkind]
        constructor
        · rintro ⟨e', he', hdir, rfl⟩
          cases he'
          exact ⟨hword.symm, hdir⟩
        · rintro ⟨rfl, hdir⟩
          exact ⟨e, rfl, hdir, hword⟩
      · rw [hfinds]
        by_cases hdir : (inodeAt s e.inode).isDir = true
        · have hshown : e ∈ shownEntries s sh.dir := by
            rw [← reached_cut]
            exact List.mem_append_left _ hin
          rw [(isDirectory_dir hs hd env he hlen hdir (hkind.mpr hdir)).1 hshown]
          exact (and_iff_left hdir).symm
        · rw [hfile hdir]
          exact iff_of_false (Ne.symm hi) fun hno => hdir hno.2
      · have hmem : e' ∈ (view s).dirEntries sh.dir := by
          rw [← reached_cut_hidden]
          exact List.mem_append_right _ he'
        have hnames := hs.names sh.dir hd.2
        rw [← reached_cut_hidden, List.map_append] at hnames
        exact absurd heq.symm ((List.nodup_append.mp hnames).2.2 _ (List.mem_map_of_mem hin) _
          (List.mem_map_of_mem he'))
    · have hnone : ∀ i, ¬ ((cmdCd env sh s e.name).1 = .entered ∧
          (cmdCd env sh s e.name).2.dir = i) := by
        intro i hno
        obtain ⟨e', he', -⟩ := (hcd i).mp hno
        rw [hentry] at he'
        cases he'
      by_cases hdir : (inodeAt s e.inode).isDir = true
      · -- `cmd_cd` misses the directory
        apply iff_of_false
        · intro hagree
          exact hnone _ ((hagree.cd _).mpr ((hfinds _).mpr ⟨rfl, hdir⟩))
        · intro hsafe
          exact hsafe.reached e hout rfl (hkind.mpr hdir)
      · -- a file is to be found by none of them
        have hno : ∀ i, ¬ FindsDir env s sh.dir e.name i := fun i hno =>
          hdir ((hfinds i).mp hno).2
        refine iff_of_true ⟨fun i => iff_of_false (hnone i) (hno i), fun i hi => ?_⟩
          ⟨fun e' he' heq => ?_, fun hno => absurd hno hpresent⟩
        · rw [hfile hdir]
          exact iff_of_false (Ne.symm hi) (hno i)
        · have hmem : e' ∈ (view s).dirEntries sh.dir := by
            rw [← reached_cut_hidden]
            exact List.mem_append_right _ he'
          rw [hunique e' hmem heq]
          exact fun htype => hdir (hkind.mp htype)

/-- The shell when it starts. -/
def Session.start : Session := { Statics.start with cwd := slash }

theorem lookups_agree_wideRoot :
    LookupsAgree .zero .start (runCalls wideRoot freshFs) (.letter 0x64) := by
  have hrun : allProper wideRoot freshFs = true ∧
      AllocatedDir (runCalls wideRoot freshFs) Session.start.dir ∧
      cutEntries (runCalls wideRoot freshFs) Session.start.dir = [] ∧
      hiddenEntries (runCalls wideRoot freshFs) Session.start.dir = [] ∧
      leftEntries (runCalls wideRoot freshFs) Session.start.dir Session.start.dir_buffer = [] := by
    decide +kernel
  obtain ⟨hproper, hd, hcut, hhidden, hleft⟩ := hrun
  have hreach := (Reachable.fresh ProperCall).runCalls hproper
  generalize runCalls wideRoot freshFs = s at *
  refine (lookups_agree_iff hreach hd .zero (by decide) (by decide) (by decide)).mpr ⟨?_, ?_⟩
  · rw [hcut, hhidden]
    nofun
  · rw [hleft]
    nofun

/-! ## A directory that is not there -/

/-- A name that fills the first block of the root directory behind `longFile`. -/
def fillName : EntryName where
  bytes := List.replicate 200 0x62
  bound := by
    rw [List.length_replicate]
    decide

/-- The root directory with a folder `d` and, in its second block, a folder `x`. -/
def farFolder : List Call :=
  [.write (.folder 2 (.letter 0x64)), longFile 0, .write (.file 2 fillName []),
    .write (.folder 2 (.letter 0x78))]

/-- `cd d`, then `cd x`: that `d` has no entry `x` is found by the kernel only. -/
theorem cd_enters_stale_entry :
    Reachable ProperCall (runCalls farFolder freshFs) ∧
      AllocatedDir (runCalls farFolder freshFs)
        (cmdCd .zero .start (runCalls farFolder freshFs) (.letter 0x64)).2.dir ∧
      ¬ LookupsAgree .zero (cmdCd .zero .start (runCalls farFolder freshFs) (.letter 0x64)).2
        (runCalls farFolder freshFs) (.letter 0x78) := by
  have hrun : allProper farFolder freshFs = true ∧
      AllocatedDir (runCalls farFolder freshFs)
        (cmdCd .zero .start (runCalls farFolder freshFs) (.letter 0x64)).2.dir ∧
      (cmdCd .zero (cmdCd .zero .start (runCalls farFolder freshFs) (.letter 0x64)).2
        (runCalls farFolder freshFs) (.letter 0x78)).1 = .entered ∧
      (cmdCd .zero (cmdCd .zero .start (runCalls farFolder freshFs) (.letter 0x64)).2
        (runCalls farFolder freshFs) (.letter 0x78)).2.dir = 15 ∧
      findEntryInDir .zero (runCalls farFolder freshFs)
        (cmdCd .zero .start (runCalls farFolder freshFs) (.letter 0x64)).2.dir
        (.letter 0x78) = 0 := by
    decide +kernel
  obtain ⟨hproper, hd, hentered, hdir, hfind⟩ := hrun
  have hreach := (Reachable.fresh ProperCall).runCalls hproper
  generalize runCalls farFolder freshFs = s at *
  generalize (cmdCd .zero .start s (.letter 0x64)).2 = sh at *
  refine ⟨hreach, hd, ?_⟩
  intro hagree
  obtain ⟨hfound, -⟩ := (hagree.cd 15).mp ⟨hentered, hdir⟩
  rw [hfind] at hfound
  cases hfound

end RendangOS.Shell
