import RendangOS.Lib.Lines
import RendangOS.Shell.Files
import RendangOS.Shell.Text

/-!
# `grep`

`cmd_grep` has two loops: one cuts the lines of a file out of `file_buffer`, the
other takes lines from a pipe that `cmd_cat` has filled. `main` runs the stages of
a command line and carries the output of each into the next.
-/

namespace RendangOS.Shell

open Ext2 Lines

/-! ## Pipes and output -/

/-- `WHITE`, `GREEN`, `YELLOW` and `RED`. -/
def white : BitVec 8 := 0x0F
def green : BitVec 8 := 0x0A
def yellow : BitVec 8 := 0x0E
def red : BitVec 8 := 0x0C

@[simp] def pipeBufferSize : ℕ := 4096

/-- The bytes of a message. -/
def message (str : String) : Text := str.toList.map fun c => BitVec.ofNat 8 c.toNat

/-- The two pipe buffers up to their lengths, and what went to the terminal. -/
structure Pipes where
  pipe_output_buffer : Text
  pipe_input_buffer : Text
  pipe_input_pos : ℕ
  pipe_mode_output : Bool
  pipe_mode_input : Bool
  printed : List (BitVec 8 × BitVec 8)

def pipeReset (st : Pipes) : Pipes :=
  { st with
    pipe_output_buffer := []
    pipe_input_buffer := []
    pipe_input_pos := 0
    pipe_mode_output := false
    pipe_mode_input := false }

def pipeSetOutputMode (st : Pipes) (enable : Bool) : Pipes :=
  { st with
    pipe_mode_output := enable
    pipe_output_buffer := if enable then [] else st.pipe_output_buffer }

def pipeTransferOutputToInput (st : Pipes) : Pipes :=
  { st with
    pipe_input_buffer := st.pipe_output_buffer
    pipe_input_pos := 0
    pipe_output_buffer := [] }

def pipeSetInputMode (st : Pipes) (enable : Bool) : Pipes :=
  { st with
    pipe_mode_input := enable
    pipe_input_pos := if enable then 0 else st.pipe_input_pos }

/-- `pipe_output_buffer[pipe_output_len++] = c`, if there is room. -/
def pipePut (out : Text) (c : BitVec 8) : Text :=
  if out.length < pipeBufferSize - 1 then out ++ [c] else out

def putchar (st : Pipes) (c color : BitVec 8) : Pipes :=
  if st.pipe_mode_output = true then
    { st with pipe_output_buffer := pipePut st.pipe_output_buffer c }
  else { st with printed := st.printed ++ [(c, color)] }

def puts (st : Pipes) (str : Text) (color : BitVec 8) : Pipes :=
  if st.pipe_mode_output = true then
    { st with pipe_output_buffer := str.foldl pipePut st.pipe_output_buffer }
  else { st with printed := st.printed ++ str.map fun c => (c, color) }

/-- The loop of `pipe_getline` from `pipe_input_pos` on: `buf`, and the new
`pipe_input_pos`. -/
def getlineLoop (input : Text) : ℕ → ℕ → Text × ℕ
  | 0, pos => ([], pos)
  | room + 1, pos =>
      match input[pos]? with
      | none => ([], pos)
      | some c =>
          if c = newline then ([], pos + 1)
          else
            let rest := getlineLoop input room (pos + 1)
            (c :: rest.1, rest.2)

/-- The result with the string in `buf`. -/
def pipeGetline (st : Pipes) (maxLen : ℕ) : Bool × Text × Pipes :=
  if st.pipe_mode_input = false ∨ st.pipe_input_buffer.length ≤ st.pipe_input_pos then
    (false, [], st)
  else
    let loop := getlineLoop st.pipe_input_buffer (maxLen - 1) st.pipe_input_pos
    (decide (0 < loop.1.length ∨ loop.2 < st.pipe_input_buffer.length), cString loop.1,
      { st with pipe_input_pos := loop.2 })

/-! ## `cmd_cat` -/

/-- `if (c == '\r') continue; putchar(c, WHITE)`. -/
def catByte (st : Pipes) (c : BitVec 8) : Pipes :=
  if c = carriageReturn then st else putchar st c white

/-- The bytes of `file_buffer` up to `fileSize`. -/
def bufferText (buf : ℕ → BitVec 8) (start len : ℕ) : Text :=
  (List.range len).map fun k => buf (start + k)

def cmdCat (env : Env) (s : Fs) (sh : Statics) (st : Pipes) (filename : EntryName) :
    Statics × Pipes :=
  if filename.len = 0 then (sh, puts st (message "cat: Missing operand\n") red)
  else
    let fileSize := getFileSize env s filename sh.current_dir_inode
    if fileSize < 0 then
      let st := puts st (message "cat: File not found: ") red
      let st := puts st filename.bytes red
      (sh, puts st [newline] white)
    else if fileSize > fileBufferSize then
      (sh, puts st (message "cat: File too large\n") red)
    else
      let req := fileRequest sh.file_buffer filename sh.current_dir_inode (BitVec.ofInt 32 fileSize)
      let ret := Ext2.read env s req
      let sh := { sh with file_buffer := ret.2 }
      if ret.1 = 0 then
        let size := fileSize.toNat
        let st := (bufferText ret.2 0 size).foldl catByte st
        if 0 < size ∧ ret.2 (size - 1) ≠ newline then (sh, puts st [newline] white)
        else (sh, st)
      else if ret.1 = 1 then (sh, puts st (message "cat: Is a directory\n") red)
      else (sh, puts st (message "cat: Error reading file\n") red)

/-! ## `cmd_grep` -/

def strContains (haystack needle : Text) : Bool :=
  if needle = [] then true
  else if needle.length > haystack.length then false
  else (List.range (haystack.length - needle.length + 1)).any fun i =>
    (List.range needle.length).all fun j => haystack[i + j]? == needle[j]?

@[simp] def lineSize : ℕ := 256

/-- `puts(line, WHITE); puts("\n", WHITE)`, if the line contains the pattern. -/
def grepLine (pattern : Text) (st : Pipes) (line : Text) : Pipes :=
  if strContains line pattern then puts (puts st line white) [newline] white else st

theorem getlineLoop_le (input : Text) (room pos : ℕ) : pos ≤ (getlineLoop input room pos).2 := by
  induction room generalizing pos with
  | zero => exact le_rfl
  | succ room ih =>
      rw [getlineLoop]
      split
      · exact le_rfl
      · split
        · exact Nat.le_succ pos
        · exact (Nat.le_succ pos).trans (ih (pos + 1))

theorem getlineLoop_lt (input : Text) (room : ℕ) {pos : ℕ} (hpos : pos < input.length) :
    pos < (getlineLoop input (room + 1) pos).2 := by
  rw [getlineLoop, List.getElem?_eq_getElem hpos]
  dsimp only
  split
  · exact Nat.lt_succ_self pos
  · exact Nat.lt_of_succ_le (getlineLoop_le input room (pos + 1))

/-- A call that returns true has read on in the pipe. -/
theorem pipeGetline_true {st st' : Pipes} {line : Text}
    (h : pipeGetline st lineSize = (true, line, st')) :
    st'.pipe_input_buffer = st.pipe_input_buffer ∧ st.pipe_input_pos < st'.pipe_input_pos ∧
      st.pipe_input_pos < st.pipe_input_buffer.length := by
  unfold pipeGetline at h
  by_cases hend : st.pipe_mode_input = false ∨ st.pipe_input_buffer.length ≤ st.pipe_input_pos
  · rw [if_pos hend] at h
    cases h
  · rw [if_neg hend, not_or, not_le] at *
    have hst := (Prod.mk.inj (Prod.mk.inj h).2).2
    subst hst
    exact ⟨rfl, getlineLoop_lt _ 254 hend.2, hend.2⟩

theorem grepLine_input (pattern : Text) (st : Pipes) (line : Text) :
    (grepLine pattern st line).pipe_input_buffer = st.pipe_input_buffer ∧
      (grepLine pattern st line).pipe_input_pos = st.pipe_input_pos := by
  have hputs : ∀ (st : Pipes) (str : Text) (color : BitVec 8),
      (puts st str color).pipe_input_buffer = st.pipe_input_buffer ∧
        (puts st str color).pipe_input_pos = st.pipe_input_pos := by
    intro st str color
    unfold puts
    split <;> exact ⟨rfl, rfl⟩
  unfold grepLine
  split
  · obtain ⟨hbuf, hpos⟩ := hputs (puts st line white) [newline] white
    obtain ⟨hbuf', hpos'⟩ := hputs st line white
    exact ⟨hbuf.trans hbuf', hpos.trans hpos'⟩
  · exact ⟨rfl, rfl⟩

/-- The loop over the lines of the pipe. -/
def grepPipe (pattern : Text) (st : Pipes) : Pipes :=
  match _h : pipeGetline st lineSize with
  | (false, _, st') => st'
  | (true, line, st') => grepPipe pattern (grepLine pattern st' line)
termination_by st.pipe_input_buffer.length - st.pipe_input_pos
decreasing_by
  obtain ⟨hbuf, hlt, hin⟩ := pipeGetline_true _h
  obtain ⟨hbuf', hpos⟩ := grepLine_input pattern st' line
  rw [hbuf', hpos, hbuf]
  omega

/-- The loop over `i` up to `file_size`, with `line_start` and `line_len`. -/
def grepScan (buf : ℕ → BitVec 8) (fileSize : ℕ) (pattern : Text) :
    ℕ → ℕ → ℕ → ℕ → Pipes → Pipes
  | 0, _, _, _, st => st
  | turns + 1, i, lineStart, lineLen, st =>
      if i = fileSize ∨ buf i = newline then
        let st :=
          if 0 < lineLen ∧ lineLen < lineSize then
            grepLine pattern st (cString (bufferText buf lineStart lineLen))
          else st
        grepScan buf fileSize pattern turns (i + 1) (i + 1) 0 st
      else grepScan buf fileSize pattern turns (i + 1) lineStart (lineLen + 1) st

def cmdGrep (env : Env) (s : Fs) (sh : Statics) (st : Pipes) (pattern : Text)
    (filename : EntryName) : Statics × Pipes :=
  if pattern = [] then
    let st := puts st (message "grep: Missing pattern\n") red
    (sh, puts st (message "Usage: grep <pattern> [file] or cmd | grep <pattern>\n") yellow)
  else if st.pipe_mode_input = true then (sh, grepPipe pattern st)
  else if filename.len ≠ 0 then
    let fileSize := getFileSize env s filename sh.current_dir_inode
    if fileSize < 0 then
      let st := puts st (message "grep: File not found: ") red
      let st := puts st filename.bytes red
      (sh, puts st [newline] white)
    else if fileSize > fileBufferSize then
      (sh, puts st (message "grep: File too large\n") red)
    else
      let req := fileRequest sh.file_buffer filename sh.current_dir_inode (BitVec.ofInt 32 fileSize)
      let ret := Ext2.read env s req
      let sh := { sh with file_buffer := ret.2 }
      if ret.1 ≠ 0 then (sh, puts st (message "grep: Error reading file\n") red)
      else
        let size := fileSize.toNat
        (sh, grepScan ret.2 size pattern (size + 1) 0 0 0 st)
  else
    (sh, puts st
      (message "grep: No input (use: grep <pattern> <file> or cmd | grep <pattern>)\n") red)

/-! ## `main` -/

/-- A stage of a command line: the commands at issue. -/
inductive Stage where
  | cat (filename : EntryName)
  | grep (pattern : Text) (filename : EntryName)

def Stage.run (env : Env) (s : Fs) (sh : Statics) (st : Pipes) : Stage → Statics × Pipes
  | .cat filename => cmdCat env s sh st filename
  | .grep pattern filename => cmdGrep env s sh st pattern filename

/-- The stages that are left. `several` is `pipe_count > 1`, and `first` is
`pipe_idx == 0`. -/
def runStages (env : Env) (s : Fs) (several : Bool) :
    Bool → List Stage → Statics × Pipes → Statics × Pipes
  | _, [], res => res
  | first, stage :: rest, (sh, st) =>
      let st := if several then pipeSetOutputMode st (!rest.isEmpty) else st
      let st := if several && !first then pipeSetInputMode st true else st
      let res := stage.run env s sh st
      runStages env s several false rest
        (res.1, if rest.isEmpty then res.2 else pipeTransferOutputToInput res.2)

/-- A command line that is split into stages. -/
def runLine (env : Env) (s : Fs) (sh : Statics) (st : Pipes) (stages : List Stage) :
    Statics × Pipes :=
  let res := runStages env s (decide (stages.length > 1)) true stages (sh, pipeReset st)
  (res.1, pipeReset res.2)

/-! ## What both paths should print -/

/-- The bytes of file `a`. A byte of a block that was never stored is a zero byte,
as in any hole of a file. -/
def fileText (s : Fs) (a : ℕ) : Text :=
  (List.range (inodeAt s a).i_size.toNat).map fun k =>
    if k < fileLength s a then fileByte s a k else 0

def fileLines (s : Fs) (a : ℕ) : List Text := (fileText s a).splitOn newline

/-- A line with its newline, in white. -/
def printedLine (line : Text) : List (BitVec 8 × BitVec 8) :=
  (line ++ [newline]).map fun c => (c, white)

/-- The lines that contain the pattern, in order and in full. -/
def selected (pattern : Text) (lines : List Text) : List (BitVec 8 × BitVec 8) :=
  (lines.filter fun line => decide (pattern <:+: line)).flatMap printedLine

/-- Both command lines print the selected lines of file `a`. -/
structure PathsAgree (env : Env) (s : Fs) (sh : Statics) (st : Pipes) (pattern : Text)
    (filename : EntryName) (a : ℕ) : Prop where
  file : (runLine env s sh st [.grep pattern filename]).2.printed =
    st.printed ++ selected pattern (fileLines s a)
  pipe : (runLine env s sh st [.cat filename, .grep pattern ⟨[], by decide⟩]).2.printed =
    st.printed ++ selected pattern (fileLines s a)

/-! ## One line -/

variable {env : Env} {s : Fs} {sh : Statics} {st : Pipes} {pattern : Text} {buf : ℕ → BitVec 8}

/-- The two loops of `str_contains` look for the needle at every place. -/
theorem strContains_eq (haystack needle : Text) :
    strContains haystack needle = decide (needle <:+: haystack) := by
  unfold strContains
  by_cases hnil : needle = []
  · rw [if_pos hnil, hnil]
    exact (decide_eq_true List.nil_infix).symm
  · rw [if_neg hnil]
    by_cases hlong : needle.length > haystack.length
    · rw [if_pos hlong]
      exact (decide_eq_false fun h => absurd h.length_le (not_le.mpr hlong)).symm
    · rw [if_neg hlong, Bool.eq_iff_iff, decide_eq_true_iff, List.infix_iff_getElem?,
        List.any_eq_true]
      simp only [List.all_eq_true, List.mem_range, beq_iff_eq]
      constructor
      · rintro ⟨i, hi, hmatch⟩
        refine ⟨i, by omega, fun j hj => ?_⟩
        rw [Nat.add_comm, hmatch j hj, List.getElem?_eq_getElem hj]
      · rintro ⟨i, hi, hmatch⟩
        refine ⟨i, by omega, fun j hj => ?_⟩
        rw [Nat.add_comm, hmatch j hj, List.getElem?_eq_getElem hj]

/-- What the lines are searched for. -/
def contains (pattern line : Text) : Bool := decide (pattern <:+: line)

theorem contains_search (hpattern : pattern ≠ []) : Search (contains pattern) where
  nil := decide_eq_false fun h => hpattern (List.infix_nil.mp h)
  mono := by
    intro l l' hsub hfound
    exact decide_eq_true ((of_decide_eq_true hfound).trans hsub)

/-- Characters that go to the terminal. -/
def Pipes.emit (st : Pipes) (chs : List (BitVec 8 × BitVec 8)) : Pipes :=
  { st with printed := st.printed ++ chs }

theorem emit_emit (st : Pipes) (chs chs' : List (BitVec 8 × BitVec 8)) :
    (st.emit chs).emit chs' = st.emit (chs ++ chs') := by
  rw [Pipes.emit, Pipes.emit, Pipes.emit, List.append_assoc]

theorem puts_emit (hout : st.pipe_mode_output = false) (str : Text) (color : BitVec 8) :
    puts st str color = st.emit (str.map fun c => (c, color)) :=
  if_neg (by rw [hout]; exact Bool.false_ne_true)

theorem grepLine_emit (hout : st.pipe_mode_output = false) (line : Text) :
    grepLine pattern st line =
      st.emit (([line].filter (contains pattern)).flatMap printedLine) := by
  unfold grepLine
  rw [strContains_eq]
  change (if contains pattern line = true then _ else _) = _
  by_cases hp : contains pattern line = true
  · rw [if_pos hp, puts_emit hout, puts_emit (by exact hout), emit_emit, ← List.map_append,
      List.filter_cons_of_pos hp, List.filter_nil, List.flatMap_singleton]
    rfl
  · rw [if_neg hp, List.filter_cons_of_neg hp, List.filter_nil, List.flatMap_nil, Pipes.emit,
      List.append_nil]

/-- The lines that pass a test are searched. -/
theorem foldl_grepLine (q : Text → Bool) (lines : List Text) (hout : st.pipe_mode_output = false) :
    lines.foldl (fun st line => if q line then grepLine pattern st line else st) st =
      st.emit (((lines.filter (contains pattern)).filter q).flatMap printedLine) := by
  induction lines generalizing st with
  | nil => simp [Pipes.emit]
  | cons line lines ih =>
      rw [List.foldl_cons]
      cases hq : q line with
      | false =>
          rw [if_neg Bool.false_ne_true, ih hout, List.filter_cons]
          split
          · rw [List.filter_cons_of_neg (by simp [hq])]
          · rfl
      | true =>
          rw [if_pos rfl, grepLine_emit hout, ih (by exact hout), emit_emit, List.filter_cons,
            List.filter_cons, List.filter_nil]
          split
          · rw [List.filter_cons_of_pos hq, List.flatMap_singleton, List.flatMap_cons]
          · rfl

/-! ## The lines of the pipe -/

/-- The loop takes a piece of what is left in the pipe. -/
theorem getlineLoop_eq (input : Text) (room pos : ℕ) :
    (getlineLoop input room pos).1 = (takeLine newline room (input.drop pos)).1 ∧
      input.drop (getlineLoop input room pos).2 = (takeLine newline room (input.drop pos)).2 := by
  induction room generalizing pos with
  | zero => exact ⟨rfl, rfl⟩
  | succ room ih =>
      rw [getlineLoop]
      by_cases hpos : pos < input.length
      · rw [List.getElem?_eq_getElem hpos, List.drop_eq_getElem_cons hpos, takeLine]
        dsimp only
        split
        · exact ⟨rfl, rfl⟩
        · obtain ⟨hline, hrest⟩ := ih (pos + 1)
          exact ⟨congrArg (input[pos] :: ·) hline, hrest⟩
      · have hnil : input.drop pos = [] := List.drop_eq_nil_of_le (by omega)
        rw [List.getElem?_eq_none (by omega), hnil]
        exact ⟨rfl, rfl⟩

theorem grepPipe_false {line : Text} {st' : Pipes}
    (h : pipeGetline st lineSize = (false, line, st')) : grepPipe pattern st = st' := by
  rw [grepPipe]
  split
  · next hget =>
      rw [hget] at h
      exact (Prod.mk.inj (Prod.mk.inj h).2).2
  · next hget =>
      rw [hget] at h
      cases h

theorem grepPipe_true {line : Text} {st' : Pipes}
    (h : pipeGetline st lineSize = (true, line, st')) :
    grepPipe pattern st = grepPipe pattern (grepLine pattern st' line) := by
  rw [grepPipe]
  split
  · next hget =>
      rw [hget] at h
      cases h
  · next hget =>
      rw [hget] at h
      obtain ⟨rfl, rfl⟩ := Prod.mk.inj (Prod.mk.inj h).2
      rfl

/-- A call while something is left in the pipe, and there is no zero byte in it. -/
theorem pipeGetline_eq (hin : st.pipe_mode_input = true)
    (hleft : st.pipe_input_pos < st.pipe_input_buffer.length)
    (hzero : (0 : BitVec 8) ∉ st.pipe_input_buffer) :
    let loop := getlineLoop st.pipe_input_buffer 255 st.pipe_input_pos
    pipeGetline st lineSize =
      (decide (0 < loop.1.length ∨ loop.2 < st.pipe_input_buffer.length), loop.1,
        { st with pipe_input_pos := loop.2 }) := by
  have hopen : ¬ (st.pipe_mode_input = false ∨
      st.pipe_input_buffer.length ≤ st.pipe_input_pos) := by
    rw [hin]
    exact fun h => h.elim Bool.noConfusion (not_le.mpr hleft)
  have hline := (getlineLoop_eq st.pipe_input_buffer 255 st.pipe_input_pos).1
  have hpiece : (0 : BitVec 8) ∉ (getlineLoop st.pipe_input_buffer 255 st.pipe_input_pos).1 := by
    rw [hline]
    intro hmem
    exact hzero (List.mem_of_mem_drop ((takeLine_isPrefix ..).subset hmem))
  unfold pipeGetline
  rw [if_neg hopen]
  dsimp only [lineSize]
  rw [cString_of_no_zero hpiece]

/-- `cmd_grep` searches all pieces of what is left in the pipe. -/
theorem grepPipe_printed (hpattern : pattern ≠ []) (st : Pipes) (hin : st.pipe_mode_input = true)
    (hout : st.pipe_mode_output = false) (hzero : (0 : BitVec 8) ∉ st.pipe_input_buffer) :
    (grepPipe pattern st).printed = st.printed ++
      ((pieces newline 255 (st.pipe_input_buffer.drop st.pipe_input_pos)).filter
        (contains pattern)).flatMap printedLine := by
  by_cases hleft : st.pipe_input_pos < st.pipe_input_buffer.length
  · obtain ⟨hline, hrest⟩ := getlineLoop_eq st.pipe_input_buffer 255 st.pipe_input_pos
    have hlt := getlineLoop_lt st.pipe_input_buffer 254 hleft
    have hget := pipeGetline_eq hin hleft hzero
    rw [pieces_cons (by decide) (by simpa using hleft), ← hline, ← hrest]
    generalize getlineLoop st.pipe_input_buffer 255 st.pipe_input_pos = loop at *
    obtain ⟨line, pos⟩ := loop
    dsimp only at hlt hget ⊢
    by_cases hmore : 0 < line.length ∨ pos < st.pipe_input_buffer.length
    · rw [decide_eq_true hmore] at hget
      have hrec := grepPipe_printed hpattern (Pipes.emit { st with pipe_input_pos := pos }
        (([line].filter (contains pattern)).flatMap printedLine)) hin hout hzero
      rw [grepPipe_true hget, grepLine_emit (by exact hout), hrec]
      change st.printed ++ _ ++ ((pieces newline 255 (st.pipe_input_buffer.drop pos)).filter
        (contains pattern)).flatMap printedLine = _
      rw [List.append_assoc, ← List.flatMap_append, ← List.filter_append]
      rfl
    · -- the empty line behind the last newline
      rw [decide_eq_false hmore] at hget
      rw [not_or, Nat.not_lt, Nat.not_lt, Nat.le_zero, List.length_eq_zero_iff] at hmore
      rw [grepPipe_false hget, hmore.1, List.drop_eq_nil_of_le hmore.2, pieces_nil,
        List.filter_cons_of_neg (by simp [(contains_search hpattern).nil])]
      exact (List.append_nil _).symm
  · have hnone : pipeGetline st lineSize = (false, [], st) := if_pos (Or.inr (not_lt.mp hleft))
    rw [grepPipe_false hnone, List.drop_eq_nil_of_le (not_lt.mp hleft), pieces_nil]
    exact (List.append_nil _).symm
termination_by st.pipe_input_buffer.length - st.pipe_input_pos
decreasing_by
  change st.pipe_input_buffer.length - pos < _
  omega

/-! ## The bytes of the file -/

variable {e : DirEntry}

theorem length_bufferText (buf : ℕ → BitVec 8) (start len : ℕ) :
    (bufferText buf start len).length = len := by
  rw [bufferText, List.length_map, List.length_range]

theorem bufferText_add (buf : ℕ → BitVec 8) (start len len' : ℕ) :
    bufferText buf start (len + len') =
      bufferText buf start len ++ bufferText buf (start + len) len' := by
  simp only [bufferText, List.range_add, List.map_append, List.map_map]
  congr 2
  funext k
  exact congrArg buf (Nat.add_assoc ..).symm

theorem length_fileText (s : Fs) (a : ℕ) : (fileText s a).length = (inodeAt s a).i_size.toNat := by
  rw [fileText, List.length_map, List.length_range]

/-- A file without zero bytes is stored whole. -/
theorem fileLength_of_no_zero {a : ℕ} (h : (0 : BitVec 8) ∉ fileText s a) :
    fileLength s a = (inodeAt s a).i_size.toNat := by
  by_contra hne
  have hle := fileLength_le s a
  apply h
  refine List.mem_map.mpr ⟨fileLength s a, List.mem_range.mpr (by omega), ?_⟩
  exact if_neg (lt_irrefl _)

/-- `cat` and `grep` find the file small enough, and read its text. -/
theorem read_text (h : FileEntry s sh.dir e) (env : Env)
    (hnul : (0 : BitVec 8) ∉ fileText s e.inode) (hsmall : (fileText s e.inode).length ≤ 4094) :
    let size := getFileSize env s e.name sh.current_dir_inode
    ¬ size < 0 ∧ ¬ size > fileBufferSize ∧ size.toNat = (fileText s e.inode).length ∧
    ∃ buf, Ext2.read env s (fileRequest sh.file_buffer e.name sh.current_dir_inode
        (BitVec.ofInt 32 size)) = (0, buf) ∧
      bufferText buf 0 size.toNat = fileText s e.inode := by
  intro size
  have hlength := length_fileText s e.inode
  have hwhole := fileLength_of_no_zero hnul
  have hsize : size = (inodeAt s e.inode).i_size.toInt :=
    getFileSize_entry h.settled h.is_dir h.mem h.name env rfl
  have hcond := (inodeAt s e.inode).i_size.toInt_eq_toNat_cond
  have hnat : size.toNat = (inodeAt s e.inode).i_size.toNat := by
    split at hcond <;> omega
  have hnonneg : ¬ size < 0 := by
    split at hcond <;> omega
  refine ⟨hnonneg, by rw [fileBufferSize]; omega, by rw [hnat, hlength], ?_⟩
  refine ⟨_, h.read env rfl rfl, ?_⟩
  rw [hnat, bufferText, fileText]
  refine List.map_congr_left fun k hk => ?_
  rw [List.mem_range] at hk
  have hreq : (fileRequest sh.file_buffer e.name sh.current_dir_inode
      (BitVec.ofInt 32 size)).size = (inodeAt s e.inode).i_size.toNat := by
    rw [hsize, BitVec.ofInt_toInt]
    rfl
  rw [hreq, hwhole, Nat.min_self, Nat.zero_add, if_pos hk, if_pos hk]

/-! ## `cat` into the pipe -/

/-- Characters that go to the pipe. -/
def Pipes.pipe (st : Pipes) (text : Text) : Pipes :=
  { st with pipe_output_buffer := st.pipe_output_buffer ++ text }

theorem pipe_pipe (st : Pipes) (text text' : Text) :
    (st.pipe text).pipe text' = st.pipe (text ++ text') := by
  rw [Pipes.pipe, Pipes.pipe, Pipes.pipe, List.append_assoc]

theorem pipePut_eq {out : Text} (hroom : out.length < 4095) (c : BitVec 8) :
    pipePut out c = out ++ [c] := if_pos hroom

theorem foldl_catByte (text : Text) (hout : st.pipe_mode_output = true)
    (hcr : carriageReturn ∉ text) (hroom : st.pipe_output_buffer.length + text.length ≤ 4095) :
    text.foldl catByte st = st.pipe text := by
  induction text generalizing st with
  | nil => rw [List.foldl_nil, Pipes.pipe, List.append_nil]
  | cons c text ih =>
      rw [List.mem_cons, not_or] at hcr
      rw [List.length_cons] at hroom
      have hput : catByte st c = st.pipe [c] := by
        rw [catByte, if_neg (Ne.symm hcr.1), putchar, if_pos hout, pipePut_eq (by omega)]
        rfl
      have hroom' : (st.pipe [c]).pipe_output_buffer.length + text.length ≤ 4095 := by
        rw [Pipes.pipe, List.length_append, List.length_singleton]
        omega
      rw [List.foldl_cons, hput, ih (by exact hout) hcr.2 hroom', pipe_pipe]
      rfl

theorem puts_pipe (hout : st.pipe_mode_output = true)
    (hroom : st.pipe_output_buffer.length < 4095) (c color : BitVec 8) :
    puts st [c] color = st.pipe [c] := by
  rw [puts, if_pos hout, List.foldl_cons, List.foldl_nil, pipePut_eq hroom]
  rfl

theorem getLast?_bufferText (buf : ℕ → BitVec 8) (len : ℕ) :
    (bufferText buf 0 len).getLast? = if len = 0 then none else some (buf (len - 1)) := by
  cases len with
  | zero => rfl
  | succ len =>
      rw [bufferText, List.range_succ, List.map_append, List.map_singleton, List.getLast?_concat,
        if_neg (Nat.succ_ne_zero len), Nat.zero_add]
      rfl

/-- The pipe holds the text with a newline behind its last line. -/
theorem cmdCat_pipe (h : FileEntry s sh.dir e) (env : Env)
    (hnul : (0 : BitVec 8) ∉ fileText s e.inode) (hcr : carriageReturn ∉ fileText s e.inode)
    (hsmall : (fileText s e.inode).length ≤ 4094) (hout : st.pipe_mode_output = true)
    (hempty : st.pipe_output_buffer = []) :
    (cmdCat env s sh st e.name).2 = st.pipe (terminate newline (fileText s e.inode)) := by
  obtain ⟨hneg, hlarge, hsize, buf, hread, htext⟩ := read_text h env hnul hsmall
  have hlast := getLast?_bufferText buf (fileText s e.inode).length
  have hloop := foldl_catByte (fileText s e.inode) hout hcr
    (by rw [hempty, List.length_nil]; omega)
  rw [← hsize, htext, hsize] at hlast
  unfold cmdCat
  dsimp only
  rw [if_neg h.name, if_neg hneg, if_neg hlarge, hread]
  dsimp only
  rw [if_pos rfl, htext, hsize, hloop]
  by_cases hopen : 0 < (fileText s e.inode).length ∧
      buf ((fileText s e.inode).length - 1) ≠ newline
  · rw [if_neg (by omega)] at hlast
    have hroom : (st.pipe (fileText s e.inode)).pipe_output_buffer.length < 4095 := by
      rw [Pipes.pipe, hempty, List.nil_append]
      exact Nat.lt_of_le_of_lt hsmall (by decide)
    rw [if_pos hopen, puts_pipe (by exact hout) hroom, pipe_pipe, terminate, if_neg]
    rw [hlast]
    rintro (hnone | hsome)
    · cases hnone
    · exact hopen.2 (Option.some.inj hsome)
  · rw [if_neg hopen, terminate, if_pos]
    rw [hlast]
    by_cases hzero : (fileText s e.inode).length = 0
    · exact Or.inl (if_pos hzero)
    · rw [if_neg hzero]
      have hend : buf ((fileText s e.inode).length - 1) = newline := by
        by_contra hne
        exact hopen ⟨by omega, hne⟩
      exact Or.inr (congrArg some hend)

/-! ## The lines of the file -/

/-- The scan passes over the characters of a line. -/
theorem grepScan_skip {fileSize n i : ℕ} (hin : i + n ≤ fileSize)
    (hline : newline ∉ bufferText buf i n) (turns start len : ℕ) (st : Pipes) :
    grepScan buf fileSize pattern (n + turns) i start len st =
      grepScan buf fileSize pattern turns (i + n) start (len + n) st := by
  induction n generalizing i len with
  | zero => rw [Nat.zero_add, Nat.add_zero, Nat.add_zero]
  | succ n ih =>
      rw [Nat.add_comm n 1, bufferText_add, List.mem_append, not_or] at hline
      have hfirst : buf i ≠ newline := by
        intro heq
        exact hline.1 (List.mem_map.mpr ⟨0, List.mem_range.mpr Nat.one_pos, heq⟩)
      rw [Nat.add_right_comm, grepScan, if_neg (by
        rintro (hend | heq)
        · omega
        · exact hfirst heq), ih (by omega) hline.2]
      congr 1 <;> omega

/-- The scan at the end of a line, `start` being where it begins. -/
def scanLine (pattern : Text) (st : Pipes) (line : Text) : Pipes :=
  if decide (0 < line.length ∧ line.length < lineSize) then grepLine pattern st line else st

theorem grepScan_end {fileSize start : ℕ} {line : Text}
    (hline : bufferText buf start line.length = line) (hzero : (0 : BitVec 8) ∉ line)
    (hend : start + line.length = fileSize ∨ buf (start + line.length) = newline) (turns : ℕ)
    (st : Pipes) :
    grepScan buf fileSize pattern (turns + 1) (start + line.length) start line.length st =
      grepScan buf fileSize pattern turns (start + line.length + 1) (start + line.length + 1) 0
        (scanLine pattern st line) := by
  rw [grepScan, if_pos hend, hline, cString_of_no_zero hzero, scanLine]
  simp only [decide_eq_true_iff]

/-- The scan searches the lines of the text, one by one. -/
theorem grepScan_eq (pattern text : Text) {fileSize i : ℕ}
    (htext : bufferText buf i text.length = text) (hzero : (0 : BitVec 8) ∉ text)
    (hend : i + text.length = fileSize) (st : Pipes) :
    grepScan buf fileSize pattern (text.length + 1) i i 0 st =
      (text.splitOn newline).foldl (scanLine pattern) st := by
  induction text using Lines.induction newline generalizing i st with
  | last line hline =>
      rw [grepScan_skip (by omega) (htext.symm ▸ hline), Nat.zero_add,
        ← Nat.zero_add 1, grepScan_end htext hzero (Or.inl hend), grepScan,
        List.splitOn_eq_singleton hline]
      rfl
  | line line rest hline ih =>
      rw [List.length_append, List.length_cons] at htext hend
      rw [bufferText_add] at htext
      obtain ⟨hfirst, hrest⟩ := List.append_inj htext (length_bufferText ..)
      rw [Nat.add_comm rest.length 1, bufferText_add] at hrest
      change buf (i + line.length) :: bufferText buf (i + line.length + 1) rest.length =
        newline :: rest at hrest
      obtain ⟨hnewline, hrest⟩ := List.cons.inj hrest
      rw [List.mem_append, List.mem_cons, not_or, not_or] at hzero
      have hturns : (line ++ newline :: rest).length + 1 =
          line.length + ((rest.length + 1) + 1) := by
        rw [List.length_append, List.length_cons]
        omega
      rw [hturns, grepScan_skip (by omega) (hfirst.symm ▸ hline), Nat.zero_add,
        grepScan_end hfirst hzero.1 (Or.inr hnewline), ih hrest hzero.2.2 (by omega),
        List.splitOn_append_cons_self_of_not_mem hline, List.foldl_cons]

/-! ## The two command lines -/

theorem filter_contains (hpattern : pattern ≠ []) (lines : List Text) :
    (lines.filter (contains pattern)).filter (fun line =>
        decide (0 < line.length ∧ line.length < lineSize)) =
      (lines.filter (contains pattern)).filter fun line => decide (line.length ≤ 255) := by
  refine List.filter_congr fun line hline => ?_
  have hfound := (List.mem_filter.mp hline).2
  have hne : line ≠ [] := by
    rintro rfl
    rw [(contains_search hpattern).nil] at hfound
    cases hfound
  have hpos := List.length_pos_iff.mpr hne
  rw [decide_eq_decide, lineSize]
  omega

/-- `grep pattern file` prints the selected lines that fit into `line`. -/
theorem grepFile_printed (h : FileEntry s sh.dir e) (env : Env) (hpattern : pattern ≠ [])
    (hnul : (0 : BitVec 8) ∉ fileText s e.inode)
    (hsmall : (fileText s e.inode).length ≤ 4094) (st : Pipes) :
    (runLine env s sh st [.grep pattern e.name]).2.printed = st.printed ++
      (((fileLines s e.inode).filter (contains pattern)).filter fun line =>
        decide (line.length ≤ 255)).flatMap printedLine := by
  obtain ⟨hneg, hlarge, hsize, buf, hread, htext⟩ := read_text h env hnul hsmall
  have hscan := grepScan_eq pattern (fileText s e.inode) (i := 0)
    (by rw [← hsize, htext]) hnul (Nat.zero_add _) (pipeReset st)
  have hgrep : (cmdGrep env s sh (pipeReset st) pattern e.name).2 =
      grepScan buf (fileText s e.inode).length pattern ((fileText s e.inode).length + 1) 0 0 0
        (pipeReset st) := by
    unfold cmdGrep
    dsimp only
    rw [if_neg hpattern, if_neg (show ¬ (pipeReset st).pipe_mode_input = true from
      Bool.false_ne_true), if_pos h.name, if_neg hneg, if_neg hlarge, hread]
    dsimp only
    rw [if_neg (not_not.mpr rfl), hsize]
  change (cmdGrep env s sh (pipeReset st) pattern e.name).2.printed = _
  rw [hgrep, hscan]
  change ((fileLines s e.inode).foldl (fun st line =>
      if decide (0 < line.length ∧ line.length < lineSize) = true then grepLine pattern st line
      else st) (pipeReset st)).printed = _
  rw [foldl_grepLine _ _ (show (pipeReset st).pipe_mode_output = false from rfl),
    filter_contains hpattern]
  rfl

/-- `cat file | grep pattern` prints the selected lines if these fit into `line`. -/
theorem catGrep_printed (h : FileEntry s sh.dir e) (env : Env) (hpattern : pattern ≠ [])
    (hnul : (0 : BitVec 8) ∉ fileText s e.inode) (hcr : carriageReturn ∉ fileText s e.inode)
    (hsmall : (fileText s e.inode).length ≤ 4094)
    (hfit : ∀ line ∈ fileLines s e.inode, contains pattern line = true → line.length ≤ 255)
    (st : Pipes) :
    (runLine env s sh st [.cat e.name, .grep pattern ⟨[], by decide⟩]).2.printed =
      st.printed ++ ((fileLines s e.inode).filter (contains pattern)).flatMap printedLine := by
  have hcat : (cmdCat env s sh (pipeSetOutputMode (pipeReset st) true) e.name).2 =
      (pipeSetOutputMode (pipeReset st) true).pipe (terminate newline (fileText s e.inode)) :=
    cmdCat_pipe h env hnul hcr hsmall rfl rfl
  have hzero : (0 : BitVec 8) ∉ terminate newline (fileText s e.inode) := by
    unfold terminate
    split
    · exact hnul
    · rw [List.mem_append, List.mem_singleton, not_or]
      exact ⟨hnul, by decide⟩
  change (cmdGrep env s _ (pipeSetInputMode (pipeSetOutputMode (pipeTransferOutputToInput
    (cmdCat env s sh (pipeSetOutputMode (pipeReset st) true) e.name).2) false) true) pattern
    ⟨[], _⟩).2.printed = _
  rw [hcat, cmdGrep, if_neg hpattern, if_pos (show (pipeSetInputMode _ true).pipe_mode_input = true
    from rfl), grepPipe_printed hpattern _ rfl rfl (by exact hzero)]
  change st.printed ++ ((pieces newline 255 (terminate newline (fileText s e.inode))).filter
    (contains pattern)).flatMap printedLine = _
  rw [filter_pieces (contains_search hpattern) (by decide) _ hfit]
  rfl

theorem selected_eq (pattern : Text) (lines : List Text) :
    selected pattern lines = (lines.filter (contains pattern)).flatMap printedLine := rfl

/-- A selected line that does not fit is missing from the output for the file. -/
theorem fits_of_agree (h : FileEntry s sh.dir e) (hpattern : pattern ≠ [])
    (hnul : (0 : BitVec 8) ∉ fileText s e.inode) (hsmall : (fileText s e.inode).length ≤ 4094)
    (hagree : PathsAgree env s sh st pattern e.name e.inode) :
    ∀ line ∈ fileLines s e.inode, pattern <:+: line → line.length ≤ 255 := by
  intro line hline hfound
  have hgrep := grepFile_printed h env hpattern hnul hsmall st
  have heq := List.append_cancel_left (hgrep.symm.trans hagree.file)
  have hmem : line ∈ (fileLines s e.inode).filter (contains pattern) :=
    List.mem_filter.mpr ⟨hline, decide_eq_true hfound⟩
  exact of_decide_eq_true (all_of_flatMap_filter (by simp [printedLine]) heq line hmem)

/-- **When both `grep` paths select the same lines**: exactly when every line that
contains the pattern has at most 255 bytes. -/
theorem grep_paths_agree_iff {a : ℕ} (h : Reachable OnDirectory s) (hd : AllocatedDir s sh.dir)
    {filename : EntryName} (hfile : FileAt s sh.dir filename a) (hname : filename.len ≠ 0)
    (hsmall : (fileText s a).length ≤ 4094) (hnul : (0 : BitVec 8) ∉ fileText s a)
    (hcr : carriageReturn ∉ fileText s a) (hpattern : pattern ≠ []) (env : Env) (st : Pipes) :
    PathsAgree env s sh st pattern filename a ↔
      ∀ line ∈ fileLines s a, pattern <:+: line → line.length ≤ 255 := by
  obtain ⟨⟨e, he, rfl, rfl⟩, hkind⟩ := hfile
  have hentry : FileEntry s sh.dir e :=
    ⟨reachable_settled h, reachable_packed h, hd.2, he, hkind, hname⟩
  refine ⟨fits_of_agree hentry hpattern hnul hsmall, fun hfit => ?_⟩
  have hfit' : ∀ line ∈ fileLines s e.inode, contains pattern line = true → line.length ≤ 255 :=
    fun line hline hfound => hfit line hline (of_decide_eq_true hfound)
  refine ⟨?_, ?_⟩
  · have hall : ((fileLines s e.inode).filter (contains pattern)).filter
        (fun line => decide (line.length ≤ 255)) =
          (fileLines s e.inode).filter (contains pattern) := by
      refine List.filter_eq_self.mpr fun line hmem => ?_
      obtain ⟨hline, hfound⟩ := List.mem_filter.mp hmem
      exact decide_eq_true (hfit' line hline hfound)
    rw [grepFile_printed hentry env hpattern hnul hsmall, hall, selected_eq]
  · rw [catGrep_printed hentry env hpattern hnul hcr hsmall hfit', selected_eq]

/-- The shell and its pipes at the first command line. -/
def Pipes.start : Pipes := ⟨[], [], 0, false, false, []⟩

/-- The file of a call whose result is known. -/
theorem fileAt_of_find {p a : ℕ} {filename : EntryName} (h : Reachable OnDirectory s)
    (hd : AllocatedDir s p) (hfind : findEntryInDir .zero s p filename = a) (ha : a ≠ 0)
    (hfile : (inodeAt s a).isDir = false) : FileAt s p filename a := by
  obtain ⟨e, he, hname, hinode⟩ :=
    (reachable_settled h).found_entry hd.2 (by rw [hfind]; exact ha)
  exact ⟨⟨e, he, hname, hinode.symm.trans hfind⟩, hfile⟩

/-- A file of three bytes, and the second one as the pattern. -/
theorem grep_paths_smallFile :
    PathsAgree .zero (smallFile.run .zero freshFs).2 .start .start [2] (.letter 0x61) 12 ↔
      ∀ line ∈ fileLines (smallFile.run .zero freshFs).2 12, [2] <:+: line →
        line.length ≤ 255 := by
  have hreach : Reachable OnDirectory (smallFile.run .zero freshFs).2 :=
    (Reachable.fresh OnDirectory).step .zero (show AllocatedDir freshFs 2 by decide +kernel)
  have hstate : AllocatedDir (smallFile.run .zero freshFs).2 2 ∧
      findEntryInDir .zero (smallFile.run .zero freshFs).2 2 (.letter 0x61) = 12 ∧
      (inodeAt (smallFile.run .zero freshFs).2 12).isDir = false ∧
      fileText (smallFile.run .zero freshFs).2 12 = [1, 2, 3] := by decide +kernel
  obtain ⟨hdir, hfind, hkind, htext⟩ := hstate
  generalize (smallFile.run .zero freshFs).2 = s at *
  have hcwd : AllocatedDir s Statics.start.dir := hdir
  exact grep_paths_agree_iff hreach hcwd (fileAt_of_find hreach hcwd hfind (by decide) hkind)
    (by decide) (by rw [htext]; decide) (by rw [htext]; decide) (by rw [htext]; decide)
    (by decide) .zero .start

/-- One line of 256 letters. -/
def longLine : Call := .write (.file 2 (.letter 0x62) (List.replicate 256 0x61))

/-- Neither path prints it in full. -/
theorem grep_loses_long_line :
    Reachable OnDirectory (longLine.run .zero freshFs).2 ∧
      FileAt (longLine.run .zero freshFs).2 2 (.letter 0x62) 12 ∧
      fileText (longLine.run .zero freshFs).2 12 = List.replicate 256 0x61 ∧
      ¬ PathsAgree .zero (longLine.run .zero freshFs).2 .start .start [0x61] (.letter 0x62) 12 := by
  have hreach : Reachable OnDirectory (longLine.run .zero freshFs).2 :=
    (Reachable.fresh OnDirectory).step .zero (show AllocatedDir freshFs 2 by decide +kernel)
  have hstate : AllocatedDir (longLine.run .zero freshFs).2 2 ∧
      findEntryInDir .zero (longLine.run .zero freshFs).2 2 (.letter 0x62) = 12 ∧
      (inodeAt (longLine.run .zero freshFs).2 12).isDir = false ∧
      fileText (longLine.run .zero freshFs).2 12 = List.replicate 256 0x61 := by decide +kernel
  obtain ⟨hdir, hfind, hkind, htext⟩ := hstate
  have hfile := fileAt_of_find hreach hdir hfind (by decide) hkind
  refine ⟨hreach, hfile, htext, fun hagree => ?_⟩
  generalize (longLine.run .zero freshFs).2 = s at *
  obtain ⟨⟨e, he, hname, hinode⟩, hkind⟩ := hfile
  rw [← hname, ← hinode] at hagree
  have hentry : FileEntry s 2 e := by
    refine ⟨reachable_settled hreach, reachable_packed hreach, hdir.2, he, hinode ▸ hkind, ?_⟩
    rw [hname]
    decide
  have hfit := fits_of_agree hentry (by decide) (by rw [hinode, htext]; decide)
    (by rw [hinode, htext, List.length_replicate]; decide) hagree
  have hlines : fileLines s e.inode = [List.replicate 256 0x61] := by
    rw [fileLines, hinode, htext]
    exact List.splitOn_eq_singleton (by decide)
  rw [hlines] at hfit
  have hle := hfit _ (List.mem_singleton_self _) ⟨[], List.replicate 255 0x61, rfl⟩
  rw [List.length_replicate] at hle
  exact absurd hle (by decide)

end RendangOS.Shell
