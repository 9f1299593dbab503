import RendangOS.Lib.Lines
import RendangOS.Shell.ChangeDir

/-!
# The path in the prompt

The shell shows `cwd` and works in `current_dir_inode`. `cmd_cd` sets both, but not
always together: `".."` changes the inode and leaves the path as it is, unless it comes
to the root directory. `cmd_mkdir` only adds entries, so a path that leads to a
directory keeps doing so.
-/

namespace RendangOS.Shell

open Ext2 Image RecordChain Assoc Lines

/-! ## The commands -/

/-- The message of `cmd_mkdir`. -/
inductive MkdirReport where
  /-- `"mkdir: Missing operand"` -/
  | missingOperand
  /-- `"Directory created: "` -/
  | created
  /-- `"mkdir: Directory already exists"` -/
  | alreadyExists
  /-- `"mkdir: Failed to create directory"` -/
  | failed

def mkdirRequest (name : EntryName) (parentInode : BitVec 32) : Request where
  buf := fun _ => 0
  name := name
  name_null := false
  parent_inode := parentInode
  buffer_size := 0
  is_directory := true

def cmdMkdir (env : Env) (sh : Session) (s : Fs) (name : EntryName) : MkdirReport × Fs :=
  if name.len = 0 then (.missingOperand, s)
  else
    let ret := write env s (mkdirRequest name sh.current_dir_inode)
    (if ret.1 = 0 then .created else if ret.1 = 1 then .alreadyExists else .failed, ret.2)

/-- A string that fits into `arg1`. -/
structure Argument extends EntryName where
  short : bytes.length ≤ 127
  no_zero : (0 : BitVec 8) ∉ bytes

inductive Command where
  | cd (path : Argument)
  | mkdir (name : Argument)

/-- The shell at its prompt, and the file system. -/
structure Prompt where
  sh : Session
  s : Fs

def Command.run (env : Env) (σ : Prompt) : Command → Prompt
  | .cd path => { σ with sh := (cmdCd env σ.sh σ.s path.toEntryName).2 }
  | .mkdir name => { σ with s := (cmdMkdir env σ.sh σ.s name.toEntryName).2 }

/-- A command that meets `ok`. -/
def CommandStep (ok : Prompt → Command → Prop) (σ σ' : Prompt) : Prop :=
  ∃ env c, ok σ c ∧ c.run env σ = σ'

/-- The prompts that such commands lead to, from a fresh file system on. -/
def Prompted (ok : Prompt → Command → Prop) (σ : Prompt) : Prop :=
  ∃ env s₀, Relation.ReflTransGen (CommandStep ok) ⟨.start, createExt2 env s₀⟩ σ

/-! ## Paths -/

/-- The inode that directory `p` enters under `name`. -/
def entryInode (s : Fs) (p : ℕ) (name : Text) : Option ℕ :=
  if (inodeAt s p).isDir = true then
    (lookup (fun e => e.name.bytes) ((view s).dirEntries p) name).map DirEntry.inode
  else none

/-- The inode that a path leads to from the root directory, component by component. -/
def resolve (s : Fs) (path : Text) : Option ℕ :=
  (words 0x2F path).foldlM (entryInode s) rootInodeNo

/-- The path in `cwd` leads to the current directory, and has its place there. -/
structure PathNames (σ : Prompt) : Prop where
  resolves : resolve σ.s σ.sh.cwd = some σ.sh.dir
  /-- With the terminator. -/
  fits : σ.sh.cwd.length + 1 ≤ 256

/-- `path` names the entry `e` of the current directory, it is one component, and `cwd`
has room for it. -/
def Continues (sh : Session) (s : Fs) (path : EntryName) (e : DirEntry) : Prop :=
  e ∈ (view s).dirEntries sh.dir ∧ 0x2F ∉ path.bytes ∧
    (cwdAppend sh.cwd path).length + 1 ≤ 256

instance (sh : Session) (s : Fs) (path : EntryName) : DecidablePred (Continues sh s path) :=
  fun e => by
    unfold Continues
    infer_instance

/-- What `cd` finds leaves the path right: under `".."` the root directory, or where it
is already, under another name a directory that continues the path. -/
structure CdSafe (sh : Session) (s : Fs) (path : EntryName) : Prop where
  up : path = .dotdot → sh.dir ≠ rootInodeNo →
    ∀ e ∈ cdEntry s sh.dir sh.dir_buffer path, e.inode = rootInodeNo ∨ e.inode = sh.dir
  down : path.len ≠ 0 → path.bytes ≠ slash → path ≠ .dotdot →
    ∀ e ∈ cdEntry s sh.dir sh.dir_buffer path, e.fileType = ext2FtDir → Continues sh s path e

instance (sh : Session) (s : Fs) (path : EntryName) : Decidable (CdSafe sh s path) :=
  decidable_of_iff
    ((path = .dotdot → sh.dir ≠ rootInodeNo →
      ∀ e ∈ cdEntry s sh.dir sh.dir_buffer path, e.inode = rootInodeNo ∨ e.inode = sh.dir) ∧
    (path.len ≠ 0 → path.bytes ≠ slash → path ≠ .dotdot →
      ∀ e ∈ cdEntry s sh.dir sh.dir_buffer path, e.fileType = ext2FtDir →
        Continues sh s path e))
    ⟨fun h => ⟨h.1, h.2⟩, fun h => ⟨h.up, h.down⟩⟩

def SafeCommand (σ : Prompt) : Command → Prop
  | .cd path => CdSafe σ.sh σ.s path.toEntryName
  | .mkdir _ => True

instance (σ : Prompt) : DecidablePred (SafeCommand σ)
  | .cd path => inferInstanceAs (Decidable (CdSafe σ.sh σ.s path.toEntryName))
  | .mkdir _ => instDecidableTrue

variable {env : Env} {s s' : Fs} {sh : Session} {σ σ' : Prompt} {p i : ℕ} {e : DirEntry}
  {name : EntryName} {w : Text}

/-! ## Components -/

theorem entryName_ext {name name' : EntryName} (h : name.bytes = name'.bytes) :
    name = name' := by
  cases name
  cases name'
  cases h
  rfl

theorem bytes_nodup (hs : Settled (view s)) (hd : ((view s).inode p).isDir = true) :
    (((view s).dirEntries p).map fun e => e.name.bytes).Nodup := by
  have hmap := (hs.names p hd).map fun _ _ h => entryName_ext h
  rwa [List.map_map] at hmap

theorem entryInode_entry (hs : Settled (view s)) (hd : ((view s).inode p).isDir = true)
    (he : e ∈ (view s).dirEntries p) : entryInode s p e.name.bytes = some e.inode := by
  have hlook := lookup_of_mem (bytes_nodup hs hd) he
  unfold entryInode
  rw [if_pos (show (inodeAt s p).isDir = true from hd), hlook]
  rfl

theorem mem_of_entryInode (h : entryInode s p w = some i) :
    ((view s).inode p).isDir = true ∧
      ∃ e ∈ (view s).dirEntries p, e.name.bytes = w ∧ e.inode = i := by
  unfold entryInode at h
  by_cases hd : (inodeAt s p).isDir = true
  · rw [if_pos hd, Option.map_eq_some_iff] at h
    obtain ⟨e, hlook, hi⟩ := h
    obtain ⟨he, hname⟩ := mem_of_lookup hlook
    exact ⟨hd, e, he, hname, hi⟩
  · rw [if_neg hd] at h
    cases h

/-- A component is what the kernel looks up. -/
theorem find_eq_entryInode (hs : Settled (view s)) (hd : ((view s).inode p).isDir = true)
    (env : Env) (name : EntryName) :
    findEntryInDir env s p name = (entryInode s p name.bytes).getD 0 := by
  by_cases hf : findEntryInDir env s p name = 0
  · cases hentry : entryInode s p name.bytes with
    | none => exact hf
    | some i =>
        obtain ⟨-, e, he, hbytes, -⟩ := mem_of_entryInode hentry
        obtain rfl := entryName_ext hbytes
        exact absurd hf (find_present hs hd he env)
  · obtain ⟨e, he, rfl, -⟩ := hs.found_entry hd hf
    rw [entryInode_entry hs hd he, hs.find_entry env hd he]
    rfl

/-! ## Longer paths, larger trees -/

theorem foldlM_mono {f g : ℕ → Text → Option ℕ}
    (hfg : ∀ p w i, f p w = some i → g p w = some i) {ws : List Text} :
    ∀ {p}, ws.foldlM f p = some i → ws.foldlM g p = some i := by
  induction ws with
  | nil => exact fun h => h
  | cons w ws ih =>
      intro p h
      rw [List.foldlM_cons, Option.bind_eq_bind, Option.bind_eq_some_iff] at h ⊢
      obtain ⟨q, hq, hrest⟩ := h
      exact ⟨q, hfg p w q hq, ih hrest⟩

theorem words_cwdAppend (cwd : Text) (path : EntryName) :
    words 0x2F (cwdAppend cwd path) = words 0x2F cwd ++ words 0x2F path.bytes := by
  unfold cwdAppend
  by_cases hroot : cwd = slash
  · rw [if_pos hroot, hroot]
    exact words_append 0x2F [] path.bytes
  · rw [if_neg hroot, slash, List.append_assoc]
    exact words_append 0x2F cwd path.bytes

theorem resolve_append {cwd : Text} (hcwd : resolve s cwd = some p) (hlen : name.len ≠ 0)
    (hone : 0x2F ∉ name.bytes) :
    resolve s (cwdAppend cwd name) = entryInode s p name.bytes := by
  have hne : name.bytes ≠ [] := fun hnil => hlen (congrArg List.length hnil)
  unfold resolve at hcwd ⊢
  rw [words_cwdAppend, words_single hone hne, List.foldlM_append, hcwd]
  exact Option.bind_fun_some _

/-! ## The invariant -/

/-- What safe commands keep. -/
structure AtPath (σ : Prompt) : Prop where
  settled : Settled (view σ.s)
  targets : DirTargets (view σ.s)
  root : AllocatedDir σ.s rootInodeNo
  here : AllocatedDir σ.s σ.sh.dir
  names : PathNames σ

namespace AtPath

theorem fresh (env : Env) (s₀ : Fs) : AtPath ⟨.start, createExt2 env s₀⟩ := by
  have hview := view_createExt2 env s₀
  have hroot : AllocatedDir (createExt2 env s₀) rootInodeNo := by
    obtain ⟨held, ht⟩ := reachable_tree ⟨env, s₀, .refl⟩
    exact ht.intact.root
  refine ⟨?_, ?_, hroot, hroot, rfl, (by decide : slash.length + 1 ≤ 256)⟩
  · rw [hview]
    exact fresh_settled _
  · rw [hview]
    exact fresh_dirTargets _

/-! ## `mkdir` -/

/-- A write leaves directories and their entries where they are. -/
theorem entryInode_write {r : Request} (hs : Settled (view s)) (hp : AllocatedDir s r.parent)
    (h : entryInode s p w = some i) : entryInode (write env s r).2 p w = some i := by
  obtain ⟨hd, e, he, rfl, rfl⟩ := mem_of_entryInode h
  have halloc := hs.allocatedDir hd
  have hs' : Settled (view (write env s r).2) := hs.write hp
  refine entryInode_entry hs' (hs.write_allocatedDir env hp halloc).2 ?_
  by_cases hcode : (write env s r).1 = 0
  · obtain ⟨n, P, x, v₃, hw⟩ := hs.written env hp hcode
    exact written_mem hw halloc he
  · rw [(write_fails hs hp hcode halloc.1).dirEntries_eq]
    exact he

theorem write (h : AtPath σ) {r : Request} (hr : r.parent = σ.sh.dir) :
    AtPath { σ with s := (Ext2.write env σ.s r).2 } := by
  have hp : AllocatedDir σ.s r.parent := hr ▸ h.here
  exact {
    settled := h.settled.write hp
    targets := h.targets.write env h.settled hp
    root := h.settled.write_allocatedDir env hp h.root
    here := h.settled.write_allocatedDir env hp h.here
    names := ⟨foldlM_mono (fun _ _ _ => entryInode_write h.settled hp) h.names.resolves,
      h.names.fits⟩ }

theorem mkdir (h : AtPath σ) (env : Env) (name : Argument) :
    AtPath ((Command.mkdir name).run env σ) := by
  change AtPath { σ with s := (cmdMkdir env σ.sh σ.s name.toEntryName).2 }
  unfold cmdMkdir
  split
  · exact h
  · exact h.write rfl

/-! ## `cd` -/

/-- The buffer does not matter. -/
theorem setBuffer (h : AtPath σ) (mem : Memory) :
    AtPath { σ with sh := { σ.sh with dir_buffer := mem } } :=
  ⟨h.settled, h.targets, h.root, h.here, h.names.resolves, h.names.fits⟩

theorem toRoot (h : AtPath σ) (mem : Memory) :
    AtPath { σ with sh := { σ.sh with dir_buffer := mem, current_dir_inode := 2, cwd := slash } } :=
  ⟨h.settled, h.targets, h.root, h.root, rfl, (by decide : slash.length + 1 ≤ 256)⟩

/-- The directory that `cd` enters under a name of its own. -/
theorem into (h : AtPath σ) (mem : Memory)
    (hentry : cdEntry σ.s σ.sh.dir σ.sh.dir_buffer name = some e) (hlen : name.len ≠ 0)
    (htype : e.fileType = ext2FtDir) (hnext : Continues σ.sh σ.s name e) :
    AtPath { σ with sh := { σ.sh with
      dir_buffer := mem
      current_dir_inode := BitVec.ofNat 32 e.inode
      cwd := cwdAppend σ.sh.cwd name } } := by
  obtain ⟨he, hone, hroom⟩ := hnext
  have hd := h.here.2
  have hword := cdEntry_inode h.settled hd hentry
  have htarget : AllocatedDir σ.s e.inode := h.settled.allocatedDir (h.targets _ e hd he htype)
  have hpath := resolve_append h.names.resolves hlen hone
  rw [← (mem_of_lookup hentry).2, entryInode_entry h.settled hd he, (mem_of_lookup hentry).2]
    at hpath
  refine ⟨h.settled, h.targets, h.root, ?_, ?_, hroom⟩
  · change AllocatedDir σ.s (BitVec.ofNat 32 e.inode).toNat
    rw [hword]
    exact htarget
  · change resolve σ.s (cwdAppend σ.sh.cwd name) = some (BitVec.ofNat 32 e.inode).toNat
    rw [hword]
    exact hpath

theorem cd (h : AtPath σ) (env : Env) (hsafe : CdSafe σ.sh σ.s name) :
    AtPath { σ with sh := (cmdCd env σ.sh σ.s name).2 } := by
  by_cases hroot : name.len = 0 ∨ name.bytes = slash
  · have hres : cmdCd env σ.sh σ.s name =
        (.root, { σ.sh with current_dir_inode := 2, cwd := slash }) := if_pos hroot
    rw [hres]
    exact h.toRoot σ.sh.dir_buffer
  · by_cases hup : name = .dotdot
    · subst hup
      by_cases hdir : σ.sh.current_dir_inode = 2
      · rw [cmdCd_stayed env hdir]
        exact h
      · have hne : σ.sh.dir ≠ rootInodeNo := fun heq => hdir (BitVec.eq_of_toNat_eq heq)
        rw [cmdCd_up h.settled h.here env hdir]
        cases hentry : cdEntry σ.s σ.sh.dir σ.sh.dir_buffer .dotdot with
        | none => exact h.setBuffer _
        | some e =>
            dsimp only
            rcases hsafe.up rfl hne e hentry with htwo | hself
            · have hroot : BitVec.ofNat 32 e.inode = 2 := congrArg (BitVec.ofNat 32) htwo
              rw [hroot, if_pos rfl]
              exact h.toRoot _
            · have hsame : BitVec.ofNat 32 e.inode = σ.sh.current_dir_inode :=
                BitVec.eq_of_toNat_eq ((cdEntry_inode h.settled h.here.2 hentry).trans hself)
              rw [hsame, if_neg hdir]
              exact h.setBuffer _
    · obtain ⟨hlen, hslash⟩ := not_or.mp hroot
      rw [cmdCd_name h.settled h.here env hlen hslash hup]
      cases hentry : cdEntry σ.s σ.sh.dir σ.sh.dir_buffer name with
      | none => exact h.setBuffer _
      | some e =>
          dsimp only
          by_cases htype : e.fileType = ext2FtDir
          · rw [if_pos htype]
            exact h.into _ hentry hlen htype (hsafe.down hlen hslash hup e hentry htype)
          · rw [if_neg htype]
            exact h.setBuffer _

/-- The name that `cd` finds an old entry under is no entry of the directory. -/
theorem entryInode_stale (h : AtPath σ)
    (hentry : cdEntry σ.s σ.sh.dir σ.sh.dir_buffer name = some e)
    (hstale : e ∉ (view σ.s).dirEntries σ.sh.dir) : entryInode σ.s σ.sh.dir name.bytes = none := by
  cases hfound : entryInode σ.s σ.sh.dir name.bytes with
  | none => rfl
  | some i =>
      obtain ⟨hd, e', he', hbytes, -⟩ := mem_of_entryInode hfound
      obtain rfl := entryName_ext hbytes
      rcases cdEntry_mem h.settled hd he' σ.sh.dir_buffer with ⟨-, hsome⟩ | ⟨-, hnone⟩
      · rw [hentry, Option.some.injEq] at hsome
        exact absurd (hsome ▸ he') hstale
      · rw [hentry] at hnone
        cases hnone

/-- Under a name that is one component, nothing but a safe `cd` keeps the path right. -/
theorem cd_names_iff (h : AtPath σ) (env : Env) (hone : 0x2F ∉ name.bytes) :
    PathNames { σ with sh := (cmdCd env σ.sh σ.s name).2 } ↔ CdSafe σ.sh σ.s name := by
  refine ⟨fun hnames => ⟨?_, ?_⟩, fun hsafe => (h.cd env hsafe).names⟩
  · rintro rfl hne e hentry
    have hdir : σ.sh.current_dir_inode ≠ 2 := fun heq => hne (congrArg BitVec.toNat heq)
    have hword := cdEntry_inode h.settled h.here.2 hentry
    have hentry' : cdEntry σ.s σ.sh.dir σ.sh.dir_buffer .dotdot = some e := hentry
    rw [cmdCd_up h.settled h.here env hdir, hentry'] at hnames
    dsimp only at hnames
    by_cases htwo : BitVec.ofNat 32 e.inode = 2
    · left
      rw [← hword, htwo]
      rfl
    · right
      rw [if_neg htwo] at hnames
      have hsame := h.names.resolves.symm.trans hnames.resolves
      exact (hword.symm.trans (Option.some.inj hsame).symm)
  · intro hlen hslash hup e hentry htype
    have hentry' : cdEntry σ.s σ.sh.dir σ.sh.dir_buffer name = some e := hentry
    rw [cmdCd_name h.settled h.here env hlen hslash hup, hentry'] at hnames
    dsimp only at hnames
    rw [if_pos htype] at hnames
    refine ⟨?_, hone, hnames.fits⟩
    by_contra hstale
    have hresolves := hnames.resolves
    change resolve σ.s (cwdAppend σ.sh.cwd name) = _ at hresolves
    rw [resolve_append h.names.resolves hlen hone, h.entryInode_stale hentry hstale] at hresolves
    cases hresolves

/-! ## Every run -/

theorem run (h : AtPath σ) (env : Env) {c : Command} (hc : SafeCommand σ c) :
    AtPath (c.run env σ) := by
  cases c with
  | cd path => exact h.cd env hc
  | mkdir name => exact h.mkdir env name

end AtPath

/-- **The path in the prompt names the current directory** in every run in which `cd ..`
leads to the root directory, and `cd` elsewhere to a directory that continues the path. -/
theorem path_names_dir (h : Prompted SafeCommand σ) : PathNames σ := by
  have hat : AtPath σ := by
    obtain ⟨env, s₀, hrun⟩ := h
    induction hrun with
    | refl => exact .fresh env s₀
    | tail _ hlast ih =>
        obtain ⟨env', c, hc, rfl⟩ := hlast
        exact ih.run env' hc
  exact hat.names

/-! ## Two runs -/

/-- A name of one character. -/
def Argument.letter (c : BitVec 8) (hc : c ≠ 0) : Argument where
  toEntryName := .letter c
  short := show 1 ≤ 127 by decide
  no_zero := fun hmem => hc (List.mem_singleton.mp hmem).symm

/-- `".."` -/
def Argument.dotdot : Argument where
  toEntryName := .dotdot
  short := by decide
  no_zero := by decide

def runCommands (cs : List Command) (σ : Prompt) : Prompt :=
  cs.foldl (fun σ c => c.run .zero σ) σ

/-- Each of them meets `ok` when its turn comes. -/
def AllMeet (ok : Prompt → Command → Prop) : List Command → Prompt → Prop
  | [], _ => True
  | c :: cs, σ => ok σ c ∧ AllMeet ok cs (c.run .zero σ)

instance AllMeet.decidable (ok : Prompt → Command → Prop) [∀ σ c, Decidable (ok σ c)] :
    ∀ cs σ, Decidable (AllMeet ok cs σ)
  | [], _ => instDecidableTrue
  | c :: cs, σ =>
      have := AllMeet.decidable ok cs (c.run .zero σ)
      inferInstanceAs (Decidable (ok σ c ∧ AllMeet ok cs (c.run .zero σ)))

theorem Prompted.runCommands {ok : Prompt → Command → Prop} {cs : List Command}
    (h : Prompted ok σ) (hcs : AllMeet ok cs σ) : Prompted ok (runCommands cs σ) := by
  induction cs generalizing σ with
  | nil => exact h
  | cons c cs ih =>
      obtain ⟨hc, hcs⟩ := hcs
      obtain ⟨env, s₀, hrun⟩ := h
      exact ih ⟨env, s₀, hrun.tail ⟨.zero, c, hc, rfl⟩⟩ hcs

/-- The shell when it starts, on a fresh file system. -/
def Prompt.fresh : Prompt := ⟨.start, freshFs⟩

/-- Into a new directory and back. -/
def intoAndBack : List Command :=
  [.mkdir (.letter 0x61 (by decide)), .cd (.letter 0x61 (by decide)), .cd .dotdot]

theorem path_names_intoAndBack : PathNames (runCommands intoAndBack .fresh) := by
  have hfresh : Prompted SafeCommand .fresh := ⟨.zero, .blank, .refl⟩
  exact path_names_dir (hfresh.runCommands (by decide +kernel))

/-- Into a directory `b` of a new directory `a`, and up again. -/
def intoTwoAndBack : List Command :=
  [.mkdir (.letter 0x61 (by decide)), .cd (.letter 0x61 (by decide)),
    .mkdir (.letter 0x62 (by decide)), .cd (.letter 0x62 (by decide)), .cd .dotdot]

/-- The shell is in `a` again, and still shows `"/a/b"`. -/
theorem up_keeps_path :
    Prompted (fun _ _ => True) (runCommands intoTwoAndBack .fresh) ∧
      ¬ PathNames (runCommands intoTwoAndBack .fresh) := by
  have hfresh : Prompted (fun _ _ => True) .fresh := ⟨.zero, .blank, .refl⟩
  have hrun : AllMeet (fun _ _ => True) intoTwoAndBack .fresh ∧
      resolve (runCommands intoTwoAndBack .fresh).s (runCommands intoTwoAndBack .fresh).sh.cwd ≠
        some (runCommands intoTwoAndBack .fresh).sh.dir := by
    decide +kernel
  obtain ⟨hmeet, hresolve⟩ := hrun
  exact ⟨hfresh.runCommands hmeet, fun hnames => hresolve hnames.resolves⟩

end RendangOS.Shell
