import RendangOS.Ext2.Persistence
import RendangOS.Shell.Commands

/-!
# Sessions of the shell

Whatever is typed, the volume is one that system calls lead to, the current
directory is a directory of it, and the path in the prompt is the path to it, as
long as each command is one that keeps to them: no new name is one of the dots, a
directory that `mv` moves into exists, and `cd` is safe. A file that no command
names stays as it is.
-/

namespace RendangOS.Shell

open Ext2 Image RecordChain Assoc Lines NodeStore

/-! ## System calls as runs -/

/-- The name in directory `p`, where it leads to a file. -/
def fileCut (s : Fs) (p : ℕ) (name : EntryName) : List (ℕ × EntryName) :=
  match link (nodeAt s) p name with
  | some t => if (nodeAt s t).map (fun x => x.data.is_dir) = some false then [(p, name)] else []
  | none => []

/-- System calls that lead from `s` to `s'` and take away names in `cuts` only. -/
def Calls (s : Fs) (cuts : List (ℕ × EntryName)) (s' : Fs) : Prop :=
  ∃ as, fsSystem.Run s as s' ∧ ∀ l, some l ∈ as.map Action.gone → l ∈ cuts

variable {env : Env} {s s' s'' : Fs} {w w' : Console} {p q : ℕ} {name : EntryName} {r : Request}
  {c : Call} {cuts cuts' : List (ℕ × EntryName)} {l : ℕ × EntryName} {A A' : Store} {code : ℤ}

theorem mem_fileCut : l ∈ fileCut s p name ↔
    l = (p, name) ∧ ∃ t x, link (nodeAt s) p name = some t ∧ nodeAt s t = some x ∧
      x.data.is_dir = false := by
  unfold fileCut
  cases link (nodeAt s) p name with
  | none => simp
  | some t => simp [and_comm]

theorem Calls.refl (s : Fs) (cuts : List (ℕ × EntryName)) : Calls s cuts s :=
  ⟨[], .nil (M := fsSystem) s, fun _ h => by cases h⟩

theorem Calls.mono (h : Calls s cuts s') (hsub : ∀ l ∈ cuts, l ∈ cuts') : Calls s cuts' s' := by
  obtain ⟨as, hrun, has⟩ := h
  exact ⟨as, hrun, fun l hl => hsub l (has l hl)⟩

theorem Calls.trans (h : Calls s cuts s') (h' : Calls s' cuts s'') : Calls s cuts s'' := by
  obtain ⟨as, hrun, has⟩ := h
  obtain ⟨as', hrun', has'⟩ := h'
  refine ⟨as ++ as', hrun.append hrun', fun l hl => ?_⟩
  rw [List.map_append, List.mem_append] at hl
  exact hl.elim (has l) (has' l)

theorem Calls.reachable (h : Calls s cuts s') (hs : Reachable ProperCall s) :
    Reachable ProperCall s' := by
  obtain ⟨as, hrun, -⟩ := h
  exact hrun.keeps fsSystem_refines.keeps hs

theorem Calls.call (hc : ProperCall s c) (env : Env)
    (hcut : ∀ l, (c.action (c.run env s).1).gone = some l → l ∈ cuts) :
    Calls s cuts (c.run env s).2 := by
  refine ⟨[c.action (c.run env s).1],
    .cons (fsSystem_step_call hc env) (.nil (M := fsSystem) _), fun l hl => ?_⟩
  rw [List.map_singleton, List.mem_singleton] at hl
  exact hcut l hl.symm

theorem write_calls (hc : ProperCall s (.write r)) (env : Env) (cuts : List (ℕ × EntryName)) :
    Calls s cuts (write env s r).2 := by
  refine Calls.call hc env fun l hl => ?_
  obtain ⟨r', hr, -⟩ := Action.gone_eq_some hl
  cases hr

theorem delete_calls (hc : ProperCall s (.delete r)) (env : Env)
    (hcut : (delete env s r).1 = 0 → (r.parent, r.name) ∈ cuts) :
    Calls s cuts (delete env s r).2 := by
  refine Calls.call hc env fun l hl => ?_
  obtain ⟨r', hr, rfl⟩ := Action.gone_eq_some hl
  injection hr with hreq hcode
  exact hreq ▸ hcut hcode

/-! ## Directories after a call -/

theorem allocatedDir_delete (h : Reachable ProperCall s) (hc : ProperCall s (.delete r))
    (hfile : r.is_directory = false) (env : Env) (hq : AllocatedDir s q) :
    AllocatedDir (delete env s r).2 q :=
  isDir_storeOf.mp ((delete_refines h hc env).isDir hfile (isDir_storeOf.mpr hq))

theorem settled_of_proper (h : Reachable ProperCall s) : Settled (view s) :=
  reachable_settled (h.mono fun _ _ hc => hc.onDirectory)

theorem allocatedDir_write (h : Reachable ProperCall s) (hp : AllocatedDir s r.parent) (env : Env)
    (hq : AllocatedDir s q) : AllocatedDir (write env s r).2 q :=
  (settled_of_proper h).write_allocatedDir env hp hq

/-- What a `delete` of a file takes away is the name of a file. -/
theorem fileCut_of_deleted (h : Reachable ProperCall s) (hc : ProperCall s (.delete r))
    (hfile : r.is_directory = false) (env : Env) (hcode : (delete env s r).1 = 0) :
    (r.parent, r.name) ∈ fileCut s r.parent r.name := by
  have hdel := delete_refines h hc env
  rw [hcode] at hdel
  generalize storeOf (delete env s r).2 = A' at hdel
  cases hdel with
  | removed _ hy ht hx hkind _ =>
      exact mem_fileCut.mpr ⟨rfl, _, _, link_eq_some.mpr ⟨_, hy, ht⟩, hx, hkind.trans hfile⟩

/-! ## The calls of a command -/

theorem writeOver_calls {r : Request} (h : Reachable ProperCall s) (hc : ProperCall s (.write r))
    (env : Env) :
    Calls s (fileCut s r.parent r.name) (writeOver env s r).2 ∧
      ∀ q, AllocatedDir s q → AllocatedDir (writeOver env s r).2 q := by
  have hp : AllocatedDir s r.parent := hc.1
  have hwrite := write_calls hc env (fileCut s r.parent r.name)
  have hdirs := fun q => allocatedDir_write (q := q) h hp env
  unfold writeOver
  dsimp only
  split
  · next hcode =>
    have hstore := (write_refines h hc env).eq_of_taken hcode
    have hcut : fileCut (write env s r).2 r.parent r.name = fileCut s r.parent r.name := by
      unfold fileCut
      rw [show nodeAt (write env s r).2 = nodeAt s from congrArg Store.node hstore]
    have h₁ := hwrite.reachable h
    generalize (write env s r).2 = s₁ at *
    have hc₁ : ProperCall s₁ (.delete (removal r)) := ⟨hdirs _ hp, hc.2⟩
    have hdelete : Calls s₁ (fileCut s r.parent r.name) (delete env s₁ (removal r)).2 :=
      delete_calls hc₁ env fun h0 =>
        hcut ▸ fileCut_of_deleted (r := removal r) h₁ hc₁ rfl env h0
    have h₂ := hdelete.reachable h₁
    have hdirs₂ := fun q => allocatedDir_delete (q := q) h₁ hc₁ rfl env
    generalize (delete env s₁ (removal r)).2 = s₂ at *
    have hc₂ : ProperCall s₂ (.write r) := ⟨hdirs₂ _ (hdirs _ hp), hc.2⟩
    exact ⟨hwrite.trans (hdelete.trans (write_calls hc₂ env _)), fun q hq =>
      allocatedDir_write h₂ hc₂.1 env (hdirs₂ q (hdirs q hq))⟩
  · exact ⟨hwrite, hdirs⟩

theorem cmdMkdir_calls {sh : Session} (hd : AllocatedDir s sh.dir) (hname : name.Proper)
    (env : Env) : Calls s [] (cmdMkdir env sh s name).2 := by
  unfold cmdMkdir
  split
  · exact .refl s _
  · exact write_calls (r := mkdirRequest name sh.current_dir_inode) ⟨hd, hname⟩ env []

theorem cmdEcho_calls {sh : Statics} (hd : AllocatedDir s sh.dir) (hname : name.Proper)
    (env : Env) (text : Text) : Calls s [] (cmdEcho env sh s text name).2.2 := by
  unfold cmdEcho
  split
  · exact .refl s _
  · split
    · exact .refl s _
    · exact write_calls (r := fileRequest _ name sh.current_dir_inode _) ⟨hd, hname⟩ env []

theorem cmdCp_calls {sh : Statics} {src dst : EntryName} (h : Reachable ProperCall s)
    (hd : AllocatedDir s sh.dir) (hname : dst.Proper) (env : Env) :
    Calls s (fileCut s sh.dir dst) (cmdCp env sh s src dst).2.2 := by
  unfold cmdCp
  split
  · exact .refl s _
  · cases fetch env sh s src with
    | noSource => exact .refl s _
    | tooLarge => exact .refl s _
    | unreadable buf => exact .refl s _
    | fetched size buf =>
        exact (writeOver_calls (r := fileRequest buf dst sh.current_dir_inode size) h
          ⟨hd, hname⟩ env).1

theorem cmdRm_calls {sh : Statics} (h : Reachable ProperCall s) (hd : AllocatedDir s sh.dir)
    (hname : name.Proper) (env : Env) : Calls s [(sh.dir, name)] (cmdRm env sh s name).2 := by
  unfold cmdRm
  split
  · exact .refl s _
  · have hc : ProperCall s (.delete (rmRequest name sh.current_dir_inode false)) := ⟨hd, hname⟩
    have hfile : Calls s [(sh.dir, name)]
        (delete env s (rmRequest name sh.current_dir_inode false)).2 :=
      delete_calls hc env fun _ => List.mem_singleton_self _
    dsimp only
    split
    · have hd₁ := allocatedDir_delete h hc rfl env hd
      exact hfile.trans (delete_calls (r := rmRequest name sh.current_dir_inode true)
        ⟨hd₁, hname⟩ env fun _ => List.mem_singleton_self _)
    · exact hfile

theorem cmdMv_calls {sh : Statics} {src dst : EntryName} (h : Reachable ProperCall s)
    (hd : AllocatedDir s sh.dir) (hsrc : src.Proper)
    (htarget : AllocatedDir s (moveTarget env sh s src dst).1.toNat)
    (hname : (moveTarget env sh s src dst).2.Proper) :
    Calls s ((sh.dir, src) :: fileCut s (moveTarget env sh s src dst).1.toNat
      (moveTarget env sh s src dst).2) (cmdMv env sh s src dst).2.2 := by
  have hsame := (isDirectory_statics env sh s dst).1
  unfold cmdMv
  dsimp only
  generalize moveTarget env sh s src dst = target at *
  generalize (isDirectory env sh s dst).2 = sh' at *
  split
  · exact .refl s _
  · split
    · exact .refl s _
    · cases fetch env sh' s src with
      | noSource => exact .refl s _
      | tooLarge => exact .refl s _
      | unreadable buf => exact .refl s _
      | fetched size buf =>
          dsimp only
          obtain ⟨hcalls, hdirs⟩ := writeOver_calls (r := fileRequest buf target.2 target.1 size) h
            ⟨htarget, hname⟩ env
          have hwrite := hcalls.mono fun l hl => List.mem_cons_of_mem (sh.dir, src) hl
          split
          · exact hwrite
          · -- the source goes, whatever it is by now
            have hd' : AllocatedDir (writeOver env s (fileRequest buf target.2 target.1 size)).2
                sh'.current_dir_inode.toNat := hsame ▸ hdirs sh.dir hd
            refine hwrite.trans (delete_calls
              (r := sourceRequest { sh' with file_buffer := buf } src) ⟨hd', hsrc⟩ env fun _ => ?_)
            change (sh'.current_dir_inode.toNat, src) ∈ _
            rw [hsame]
            exact List.mem_cons_self

/-! ## The path to the current directory -/

/-- The names along a path that is written with slashes; `"."` leads nowhere else. -/
def pathNames (path : Text) : List EntryName :=
  ((words 0x2F path).filter fun word => decide (word ≠ EntryName.dot.bytes)).map operand

/-- The name is one in directory `p`, or that of a file. -/
def Spares (s : Fs) (p : ℕ) (l : ℕ × EntryName) : Prop :=
  l.1 = p ∨ l ∈ fileCut s l.1 l.2

/-- Such a name is not on the path to directory `p`: what is on it leads to `p`, or
to a directory with a name in it. -/
theorem not_mem_trail (h : Reachable ProperCall s) {path : List EntryName}
    (hproper : ∀ w ∈ path, w.Proper) (hpath : PathTo s path p) (hp : AllocatedDir s p)
    (hl : Spares s p l) : l ∉ trail (nodeAt s) rootInodeNo path := by
  intro hmem
  have hlinked := reachable_linked h
  rcases hl with rfl | hfile
  · exact hlinked.not_mem_trail hproper hpath l.2 hmem
  · obtain ⟨-, t, x, ht, hx, hd⟩ := mem_fileCut.mp hfile
    obtain ⟨t', ht', hend⟩ := link_of_mem_trail hpath hmem
    obtain rfl : t = t' := Option.some.inj (ht.symm.trans ht')
    have hdir : AllocatedDir s t := by
      rcases hend with rfl | ⟨w, u, hu⟩
      · exact hp
      · exact (link_nodeAt hu).1
    rw [nodeAt_is_dir hx, hdir.2] at hd
    cases hd

/-! ## The pipes -/

/-- The calls through which the commands use the pipes. -/
inductive PipeCall (st : Pipes) : Pipes → Prop
  | putchar (c color : BitVec 8) : PipeCall st (putchar st c color)
  | puts (str : Text) (color : BitVec 8) : PipeCall st (puts st str color)
  | getline (maxLen : ℕ) : PipeCall st (pipeGetline st maxLen).2.2

abbrev Used : Pipes → Pipes → Prop := Relation.ReflTransGen PipeCall

/-- Both buffers are filled up to their last byte at most, and the place to read
from is in the filled part. -/
structure Pipes.Fit (st : Pipes) : Prop where
  output : st.pipe_output_buffer.length < pipeBufferSize
  input : st.pipe_input_buffer.length < pipeBufferSize
  pos : st.pipe_input_pos ≤ st.pipe_input_buffer.length

variable {st₀ st : Pipes}

namespace Used

theorem putchar (h : Used st₀ st) (c color : BitVec 8) : Used st₀ (Shell.putchar st c color) :=
  h.tail (.putchar c color)

theorem puts (h : Used st₀ st) (str : Text) (color : BitVec 8) :
    Used st₀ (Shell.puts st str color) :=
  h.tail (.puts str color)

theorem foldl {α : Type*} {f : Pipes → α → Pipes} (h : Used st₀ st)
    (hf : ∀ st a, Used st (f st a)) (as : List α) : Used st₀ (as.foldl f st) := by
  induction as generalizing st with
  | nil => exact h
  | cons a as ih => exact ih (h.trans (hf st a))

theorem say (h : Used st₀ st) (lines : List (Text × BitVec 8)) : Used st₀ (Shell.say st lines) :=
  h.foldl (fun _ (line : Text × BitVec 8) => puts .refl line.1 line.2) lines

theorem printInt (h : Used st₀ st) (num : BitVec 32) (color : BitVec 8) :
    Used st₀ (Shell.printInt st num color) := by
  unfold Shell.printInt
  split
  · exact h.putchar _ color
  · exact h.foldl (fun _ c => putchar .refl c color) _

theorem lsEntry (h : Used st₀ st) (e : DirEntry) : Used st₀ (Shell.lsEntry st e) := by
  have hname : ∀ color, Used st₀ (e.name.bytes.foldl (fun st c => Shell.putchar st c color) st) :=
    fun color => h.foldl (fun _ c => putchar .refl c color) _
  unfold Shell.lsEntry
  dsimp only
  split
  · exact ((hname cyan).puts slash cyan).puts _ white
  · exact (hname white).puts _ white

theorem mvPrint (h : Used st₀ st) (src dst : Text) (intoDir : Bool) (report : MvReport) :
    Used st₀ (report.print src dst intoDir st) := by
  have hlines := h.say (report.lines src dst intoDir)
  cases report with
  | notWritten ret => exact (hlines.printInt _ red).puts _ red
  | missingOperand | noSource | tooLarge | unreadable | moved | overrun => exact hlines

theorem findPrint (h : Used st₀ st) (searchName : Text) (found : List Found) :
    Used st₀ (Shell.findPrint searchName found st) := by
  unfold Shell.findPrint
  dsimp only
  have hlines := (h.say [(message "Searching for '", white), (searchName, yellow),
    (message "' in entire filesystem...\n", white)]).say (found.reverse.flatMap Found.lines)
  split
  · exact hlines.puts _ yellow
  · exact ((hlines.puts _ green).printInt _ green).puts _ green

theorem catByte (h : Used st₀ st) (c : BitVec 8) : Used st₀ (Shell.catByte st c) := by
  unfold Shell.catByte
  split
  · exact h
  · exact h.putchar c white

theorem grepLine (h : Used st₀ st) (pattern line : Text) :
    Used st₀ (Shell.grepLine pattern st line) := by
  unfold Shell.grepLine
  split
  · exact (h.puts line white).puts _ white
  · exact h

/-- Along the recursion of the loop over the pipe. -/
theorem grepPipe (pattern : Text) (h : Used st₀ st) : Used st₀ (Shell.grepPipe pattern st) := by
  induction st using grepPipe.induct pattern with
  | case1 st line st' hget =>
      have hcall := h.tail (.getline lineSize)
      rw [hget] at hcall
      rw [grepPipe_false hget]
      exact hcall
  | case2 st line st' hget ih =>
      have hcall := h.tail (.getline lineSize)
      rw [hget] at hcall
      rw [grepPipe_true hget]
      exact ih (grepLine hcall pattern line)

theorem grepScan {buf : ℕ → BitVec 8} {fileSize : ℕ} {pattern : Text} (turns : ℕ) :
    ∀ {i lineStart lineLen : ℕ} {st : Pipes}, Used st₀ st →
      Used st₀ (Shell.grepScan buf fileSize pattern turns i lineStart lineLen st) := by
  induction turns with
  | zero => exact fun h => h
  | succ turns ih =>
      intro i lineStart lineLen st h
      rw [Shell.grepScan]
      split
      · dsimp only
        split
        · exact ih (h.grepLine pattern _)
        · exact ih h
      · exact ih h

theorem cmdCat {env : Env} {s : Fs} {sh : Statics} (h : Used st₀ st) (filename : EntryName) :
    Used st₀ (Shell.cmdCat env s sh st filename).2 := by
  unfold Shell.cmdCat
  dsimp only
  split_ifs with hname hneg hlarge hread hend hdir
  · exact h.puts _ red
  · exact ((h.puts _ red).puts _ red).puts _ white
  · exact h.puts _ red
  · exact (h.foldl (fun _ c => catByte .refl c) _).puts _ white
  · exact h.foldl (fun _ c => catByte .refl c) _
  · exact h.puts _ red
  · exact h.puts _ red

theorem cmdGrep {env : Env} {s : Fs} {sh : Statics} (h : Used st₀ st) (pattern : Text)
    (filename : EntryName) : Used st₀ (Shell.cmdGrep env s sh st pattern filename).2 := by
  unfold Shell.cmdGrep
  dsimp only
  split_ifs with hnil hin hname hneg hlarge hread
  · exact (h.puts _ red).puts _ yellow
  · exact h.grepPipe pattern
  · exact ((h.puts _ red).puts _ red).puts _ white
  · exact h.puts _ red
  · exact h.puts _ red
  · exact h.grepScan _
  · exact h.puts _ red

end Used

theorem pipePut_length {out : Text} (h : out.length < pipeBufferSize) (c : BitVec 8) :
    (pipePut out c).length < pipeBufferSize := by
  unfold pipePut
  split
  · simp only [pipeBufferSize, List.length_append, List.length_singleton] at *
    omega
  · exact h

theorem getlineLoop_le_length {input : Text} (room : ℕ) :
    ∀ {pos : ℕ}, pos ≤ input.length → (getlineLoop input room pos).2 ≤ input.length := by
  induction room with
  | zero => exact fun h => h
  | succ room ih =>
      intro pos hpos
      rw [getlineLoop]
      split
      · exact hpos
      · next hc =>
        have hlt : pos < input.length := (List.getElem?_eq_some_iff.mp hc).1
        split
        · exact hlt
        · exact ih hlt

theorem PipeCall.fit {st' : Pipes} (h : PipeCall st st') (hst : st.Fit) : st'.Fit := by
  cases h with
  | putchar c color =>
      unfold Shell.putchar
      split
      · exact ⟨pipePut_length hst.output c, hst.input, hst.pos⟩
      · exact ⟨hst.output, hst.input, hst.pos⟩
  | puts str color =>
      unfold Shell.puts
      split
      · have hout : (str.foldl pipePut st.pipe_output_buffer).length < pipeBufferSize :=
          List.foldlRecOn (motive := fun out : Text => out.length < pipeBufferSize) str pipePut
            hst.output fun _ hout c _ => pipePut_length hout c
        exact ⟨hout, hst.input, hst.pos⟩
      · exact ⟨hst.output, hst.input, hst.pos⟩
  | getline maxLen =>
      unfold pipeGetline
      split
      · exact hst
      · exact ⟨hst.output, hst.input, getlineLoop_le_length _ hst.pos⟩

theorem Used.fit {st' : Pipes} (h : Used st st') (hst : st.Fit) : st'.Fit := by
  induction h with
  | refl => exact hst
  | tail _ hcall ih => exact hcall.fit ih

/-! ## What the commands keep -/

structure Kept (w : Console) : Prop where
  reachable : Reachable ProperCall w.s
  here : AllocatedDir w.s w.sh.dir
  path : PathTo w.s (pathNames w.sh.cwd) w.sh.dir
  proper : ∀ name ∈ pathNames w.sh.cwd, name.Proper
  /-- With the terminator. -/
  fits : w.sh.cwd.length + 1 ≤ 256
  pipes : w.st.Fit

/-- The command takes no dot for a new name, moves into a directory that is there,
and if it is `cd`, is a safe one. -/
def Sane (env : Env) (w : Console) : ShellCommand → Prop
  | .cd path => CdSafe w.sh w.s path
  | .mkdir name | .rm name | .echo _ name => name.Proper
  | .cp _ dst => dst.Proper
  | .mv src dst =>
      let target := moveTarget env w.sh.toStatics w.s src dst
      src.Proper ∧ target.2.Proper ∧ AllocatedDir w.s target.1.toNat
  | _ => True

/-- The names that the command may take away. -/
def ShellCommand.takes (env : Env) (w : Console) : ShellCommand → List (ℕ × EntryName)
  | .rm name => [(w.sh.dir, name)]
  | .cp _ dst => fileCut w.s w.sh.dir dst
  | .mv src dst =>
      let target := moveTarget env w.sh.toStatics w.s src dst
      (w.sh.dir, src) :: fileCut w.s target.1.toNat target.2
  | _ => []

/-- Another volume, and other buffers. -/
theorem Kept.calls (h : Kept w) (hc : Calls w.s cuts w'.s)
    (hcuts : ∀ l ∈ cuts, Spares w.s w.sh.dir l) (hdir : w'.sh.dir = w.sh.dir)
    (hcwd : w'.sh.cwd = w.sh.cwd) (hst : w'.st.Fit) : Kept w' := by
  have hreach := hc.reachable h.reachable
  obtain ⟨as, hrun, has⟩ := hc
  obtain ⟨hpath, -, hd⟩ := path_persists h.reachable hrun h.proper h.path fun l hl hgone =>
    not_mem_trail h.reachable h.proper h.path h.here (hcuts l (has l hgone)) hl
  constructor
  · exact hreach
  · rw [hdir]
    exact isDir_storeOf.mp (hd (isDir_storeOf.mpr h.here))
  · rw [hdir, hcwd]
    exact hpath
  · rw [hcwd]
    exact h.proper
  · rw [hcwd]
    exact h.fits
  · exact hst

theorem operand_bytes (name : EntryName) : operand name.bytes = name := by
  have hbound := name.bound
  refine entryName_ext ?_
  change name.bytes.take (name.bytes.length % 256) = name.bytes
  rw [Nat.mod_eq_of_lt (by omega), List.take_length]

theorem pathNames_append {cwd : Text} (hlen : name.len ≠ 0) (hone : 0x2F ∉ name.bytes) :
    pathNames (cwdAppend cwd name) = pathNames cwd ++ if name = .dot then [] else [name] := by
  have hne : name.bytes ≠ [] := fun h => hlen (congrArg List.length h)
  unfold pathNames
  rw [words_cwdAppend, words_single hone hne, List.filter_append, List.map_append]
  by_cases hdot : name = .dot
  · simp [hdot]
  · have hbytes : name.bytes ≠ EntryName.dot.bytes := fun h => hdot (entryName_ext h)
    simp [hdot, hbytes, operand_bytes]

/-- What a safe `cd` does to the directory and its path. -/
theorem cmdCd_cases {sh : Session} (hs : Settled (view s)) (hd : AllocatedDir s sh.dir) (env : Env)
    (hsafe : CdSafe sh s name) :
    let sh' := (cmdCd env sh s name).2
    (sh'.dir = sh.dir ∧ sh'.cwd = sh.cwd) ∨ (sh'.dir = rootInodeNo ∧ sh'.cwd = slash) ∨
    ∃ e, e.name = name ∧ name.len ≠ 0 ∧ name ≠ .dotdot ∧ e.fileType = ext2FtDir ∧
      Continues sh s name e ∧ sh'.dir = e.inode ∧ sh'.cwd = cwdAppend sh.cwd name := by
  by_cases hroot : name.len = 0 ∨ name.bytes = slash
  · have hres : cmdCd env sh s name =
        (.root, { sh with current_dir_inode := 2, cwd := slash }) := if_pos hroot
    rw [hres]
    exact Or.inr (Or.inl ⟨rfl, rfl⟩)
  · by_cases hup : name = .dotdot
    · subst hup
      by_cases hdir : sh.current_dir_inode = 2
      · rw [cmdCd_stayed env hdir]
        exact Or.inl ⟨rfl, rfl⟩
      · have hne : sh.dir ≠ rootInodeNo := fun heq => hdir (BitVec.eq_of_toNat_eq heq)
        rw [cmdCd_up hs hd env hdir]
        cases hentry : cdEntry s sh.dir sh.dir_buffer .dotdot with
        | none => exact Or.inl ⟨rfl, rfl⟩
        | some e =>
            dsimp only
            rcases hsafe.up rfl hne e hentry with htwo | hself
            · have hroot : BitVec.ofNat 32 e.inode = 2 := congrArg (BitVec.ofNat 32) htwo
              rw [hroot, if_pos rfl]
              exact Or.inr (Or.inl ⟨rfl, rfl⟩)
            · have hsame : BitVec.ofNat 32 e.inode = sh.current_dir_inode :=
                BitVec.eq_of_toNat_eq ((cdEntry_inode hs hd.2 hentry).trans hself)
              rw [hsame, if_neg hdir]
              exact Or.inl ⟨rfl, rfl⟩
    · obtain ⟨hlen, hslash⟩ := not_or.mp hroot
      rw [cmdCd_name hs hd env hlen hslash hup]
      cases hentry : cdEntry s sh.dir sh.dir_buffer name with
      | none => exact Or.inl ⟨rfl, rfl⟩
      | some e =>
          dsimp only
          by_cases htype : e.fileType = ext2FtDir
          · rw [if_pos htype]
            exact Or.inr (Or.inr ⟨e, (mem_of_lookup hentry).2, hlen, hup, htype,
              hsafe.down hlen hslash hup e hentry htype, cdEntry_inode hs hd.2 hentry, rfl⟩)
          · rw [if_neg htype]
            exact Or.inl ⟨rfl, rfl⟩

theorem Kept.cd (h : Kept w) (env : Env) (hsafe : CdSafe w.sh w.s name) : Kept (w.cd env name) := by
  have hs := settled_of_proper h.reachable
  have hfit : (w.cd env name).st.Fit := (Used.say .refl _).fit h.pipes
  have hcases := cmdCd_cases hs h.here env hsafe
  dsimp only at hcases
  have hdir : (w.cd env name).sh = (cmdCd env w.sh w.s name).2 := rfl
  rw [← hdir] at hcases
  have hvol : (w.cd env name).s = w.s := rfl
  generalize w.cd env name = w' at *
  rcases hcases with ⟨hd, hcwd⟩ | ⟨hd, hcwd⟩ | ⟨e, hen, hlen, hup, htype, hnext, hd, hcwd⟩
  · constructor
    · exact hvol ▸ h.reachable
    · rw [hvol, hd]
      exact h.here
    · rw [hvol, hd, hcwd]
      exact h.path
    · exact hcwd ▸ h.proper
    · exact hcwd ▸ h.fits
    · exact hfit
  · have hnil : pathNames slash = [] := by decide
    constructor
    · exact hvol ▸ h.reachable
    · rw [hvol, hd]
      exact reachable_root h.reachable
    · rw [hvol, hd, hcwd, hnil]
      rfl
    · rw [hcwd, hnil]
      exact fun _ hmem => absurd hmem List.not_mem_nil
    · rw [hcwd]
      decide
    · exact hfit
  · obtain ⟨he, hone, hroom⟩ := hnext
    have htarget : AllocatedDir w.s e.inode := hs.allocatedDir <|
      (reachable_fileType h.reachable h.here.2 he (hen ▸ hup)).mp htype
    have hnames := @pathNames_append _ w.sh.cwd hlen hone
    have hlink : link (nodeAt w.s) w.sh.dir name = some e.inode :=
      hen ▸ (link_storeOf h.here e.name).trans (hs.nameMap_entry h.here.2 he)
    constructor
    · exact hvol ▸ h.reachable
    · rw [hvol, hd]
      exact htarget
    · rw [hvol, hd, hcwd, hnames]
      by_cases hdot : name = .dot
      · obtain ⟨held, -, hdots⟩ := reachable_dottedTree h.reachable
        rw [if_pos hdot, List.append_nil, hdots.self _ e h.here.2 he (hen.trans hdot)]
        exact h.path
      · rw [if_neg hdot, PathTo, resolve_concat, h.path]
        exact hlink
    · rw [hcwd, hnames]
      intro n hn
      rcases List.mem_append.mp hn with hold | hnew
      · exact h.proper n hold
      · split at hnew
        · cases hnew
        · next hdot =>
          rw [List.mem_singleton] at hnew
          exact hnew ▸ ⟨hdot, hup⟩
    · rw [hcwd]
      exact hroom
    · exact hfit

theorem cmdLs_statics (env : Env) (sh : Statics) (s : Fs) :
    (cmdLs env sh s).2.current_dir_inode = sh.current_dir_inode := by
  unfold cmdLs
  dsimp only
  split <;> rfl

theorem cmdCat_statics (env : Env) (s : Fs) (sh : Statics) (st : Pipes) (name : EntryName) :
    (cmdCat env s sh st name).1.current_dir_inode = sh.current_dir_inode := by
  unfold cmdCat
  dsimp only
  split_ifs <;> rfl

theorem cmdGrep_statics (env : Env) (s : Fs) (sh : Statics) (st : Pipes) (pattern : Text)
    (name : EntryName) :
    (cmdGrep env s sh st pattern name).1.current_dir_inode = sh.current_dir_inode := by
  unfold cmdGrep
  dsimp only
  split_ifs <;> rfl

theorem cmdCp_statics (env : Env) (sh : Statics) (s : Fs) (src dst : EntryName) :
    (cmdCp env sh s src dst).2.1.current_dir_inode = sh.current_dir_inode := by
  unfold cmdCp
  split
  · rfl
  · cases fetch env sh s src <;> rfl

theorem cmdMv_statics (env : Env) (sh : Statics) (s : Fs) (src dst : EntryName) :
    (cmdMv env sh s src dst).2.1.current_dir_inode = sh.current_dir_inode := by
  have hsame := (isDirectory_statics env sh s dst).1
  unfold cmdMv
  dsimp only
  split
  · rfl
  · split
    · exact hsame
    · cases fetch env (isDirectory env sh s dst).2 s src with
      | noSource => exact hsame
      | tooLarge => exact hsame
      | unreadable buf => exact hsame
      | fetched size buf =>
          dsimp only
          split <;> exact hsame

theorem cmdEcho_statics (env : Env) (sh : Statics) (s : Fs) (text : Text) (name : EntryName) :
    (cmdEcho env sh s text name).2.1.current_dir_inode = sh.current_dir_inode := by
  unfold cmdEcho
  split
  · rfl
  · split <;> rfl

/-- What a command does to the console. -/
structure Effect (env : Env) (c : ShellCommand) (w w' : Console) : Prop where
  calls : Calls w.s (c.takes env w) w'.s
  used : Used w.st w'.st
  place : (∃ path, c = .cd path ∧ w' = w.cd env path) ∨
    w'.sh.dir = w.sh.dir ∧ w'.sh.cwd = w.sh.cwd

/-- A command that asks nothing of the kernel. -/
theorem Effect.said {c : ShellCommand} (env : Env) (w : Console) (lines : List (Text × BitVec 8)) :
    Effect env c w (w.say lines) :=
  ⟨.refl w.s _, Used.say .refl lines, Or.inr ⟨rfl, rfl⟩⟩

theorem Effect.ls (env : Env) (w : Console) : Effect env .ls w (w.ls env) := by
  have hdir := congrArg BitVec.toNat (cmdLs_statics env w.sh.toStatics w.s)
  unfold Console.ls
  dsimp only
  split
  · exact ⟨.refl w.s _, Used.say .refl _, Or.inr ⟨hdir, rfl⟩⟩
  · refine ⟨.refl w.s _, ?_, Or.inr ⟨hdir, rfl⟩⟩
    exact (Used.foldl .refl (fun _ e => Used.lsEntry .refl e) _).puts _ white

theorem Effect.find {turns : ℕ} (hrun : w.find env turns name = .next w') :
    Effect env (.find name) w w' := by
  unfold Console.find at hrun
  split at hrun
  · obtain rfl := Outcome.next.inj hrun
    exact .said env w _
  · split at hrun
    · cases hrun
    · cases hrun
    · obtain rfl := Outcome.next.inj hrun
      exact ⟨.refl w.s _, Used.findPrint .refl _ _, Or.inr ⟨rfl, rfl⟩⟩

theorem Effect.mv {src dst : EntryName} (h : Reachable ProperCall w.s)
    (hd : AllocatedDir w.s w.sh.dir) (hsane : Sane env w (.mv src dst))
    (hrun : w.mv env src dst = .next w') : Effect env (.mv src dst) w w' := by
  unfold Console.mv at hrun
  dsimp only at hrun
  split at hrun
  · cases hrun
  · obtain rfl := Outcome.next.inj hrun
    obtain ⟨hsrc, hname, htarget⟩ := hsane
    exact ⟨cmdMv_calls h hd hsrc htarget hname, Used.mvPrint .refl _ _ _ _,
      Or.inr ⟨congrArg BitVec.toNat (cmdMv_statics env w.sh.toStatics w.s src dst), rfl⟩⟩

theorem ShellCommand.effect {turns : ℕ} {c : ShellCommand} (h : Reachable ProperCall w.s)
    (hd : AllocatedDir w.s w.sh.dir) (hsane : Sane env w c)
    (hrun : c.run env turns w = .next w') : Effect env c w w' := by
  cases c with
  | cd path =>
      obtain rfl := Outcome.next.inj hrun
      exact ⟨.refl w.s _, Used.say .refl _, Or.inl ⟨path, rfl, rfl⟩⟩
  | ls =>
      obtain rfl := Outcome.next.inj hrun
      exact .ls env w
  | mkdir name =>
      obtain rfl := Outcome.next.inj hrun
      exact ⟨cmdMkdir_calls hd hsane env, Used.say .refl _, Or.inr ⟨rfl, rfl⟩⟩
  | cat filename =>
      obtain rfl := Outcome.next.inj hrun
      exact ⟨.refl w.s _, Used.cmdCat .refl filename,
        Or.inr ⟨congrArg BitVec.toNat (cmdCat_statics env w.s _ w.st filename), rfl⟩⟩
  | cp src dst =>
      obtain rfl := Outcome.next.inj hrun
      exact ⟨cmdCp_calls h hd hsane env, Used.say .refl _,
        Or.inr ⟨congrArg BitVec.toNat (cmdCp_statics env w.sh.toStatics w.s src dst), rfl⟩⟩
  | rm name =>
      obtain rfl := Outcome.next.inj hrun
      exact ⟨cmdRm_calls h hd hsane env, Used.say .refl _, Or.inr ⟨rfl, rfl⟩⟩
  | mv src dst => exact .mv h hd hsane hrun
  | find searchName => exact .find hrun
  | grep pattern filename =>
      obtain rfl := Outcome.next.inj hrun
      exact ⟨.refl w.s _, Used.cmdGrep .refl pattern filename,
        Or.inr ⟨congrArg BitVec.toNat (cmdGrep_statics env w.s _ w.st pattern filename), rfl⟩⟩
  | echo text filename =>
      obtain rfl := Outcome.next.inj hrun
      exact ⟨cmdEcho_calls hd hsane env text, Used.say .refl _,
        Or.inr ⟨congrArg BitVec.toNat (cmdEcho_statics env w.sh.toStatics w.s text filename), rfl⟩⟩
  | clear | help | pwd | unknown cmd =>
      obtain rfl := Outcome.next.inj hrun
      exact .said env w _
  | nothing =>
      obtain rfl := Outcome.next.inj hrun
      exact .said env w []
  | wc filename => cases hrun
  | quit => cases hrun
  | testuser => cases hrun

/-- No command takes away a name on the path to the current directory. -/
theorem ShellCommand.takes_spares (c : ShellCommand) (hl : l ∈ c.takes env w) :
    Spares w.s w.sh.dir l := by
  cases c with
  | rm name => exact Or.inl (congrArg Prod.fst (List.mem_singleton.mp hl))
  | cp src dst =>
      obtain ⟨rfl, -⟩ := mem_fileCut.mp hl
      exact Or.inl rfl
  | mv src dst =>
      rcases List.mem_cons.mp hl with rfl | hfile
      · exact Or.inl rfl
      · obtain ⟨rfl, -⟩ := mem_fileCut.mp hfile
        exact Or.inr hfile
  | cd | ls | mkdir | cat | find | grep | wc | echo | clear | help | quit | testuser | pwd
  | unknown | nothing => cases hl

theorem Kept.run {turns : ℕ} {c : ShellCommand} (h : Kept w) (hsane : Sane env w c)
    (hrun : c.run env turns w = .next w') : Kept w' := by
  have heffect := ShellCommand.effect h.reachable h.here hsane hrun
  rcases heffect.place with ⟨path, rfl, rfl⟩ | ⟨hdir, hcwd⟩
  · exact h.cd env hsane
  · exact h.calls heffect.calls (fun l hl => ShellCommand.takes_spares c hl) hdir hcwd
      (heffect.used.fit h.pipes)

end RendangOS.Shell
