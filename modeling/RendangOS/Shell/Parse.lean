import RendangOS.Lib.Lines
import RendangOS.Shell.Text

/-!
# Command parsing

The line editor of `main` collects a line, `main` splits it into the stages of a
pipeline, and `parse_input` copies three words of a stage into `cmd`, `arg1` and
`arg2`. Its loops stop at a space or at the end of the stage only. A buffer
remembers where it was written.
-/

namespace RendangOS.Shell

open Lines

/-! ## The line editor -/

/-- The characters that `getchar` returns, and the line so far. The line is there
when a newline comes. -/
def editLine : List (BitVec 8) → Text → Option Text
  | [], _ => none
  | c :: keys, line =>
      if c = 0 then editLine keys line
      else if c = newline then some line
      else if c = backspace then editLine keys line.dropLast
      else if line.length < 255 then editLine keys (line ++ [c])
      else editLine keys line

/-! ## The pipeline -/

/-- The loop over `p`: where the stages begin, those so far being `cmds`. -/
def splitPipes (rest : Text) (pos : ℕ) (cmds : List ℕ) : List ℕ :=
  match rest with
  | [] => cmds
  | c :: rest =>
      if c = verticalBar then
        let spaces := (rest.takeWhile (· = space)).length
        let next := pos + 1 + spaces
        if rest.drop spaces ≠ [] ∧ cmds.length < 8 then
          splitPipes (rest.drop spaces) next (cmds ++ [next])
        else splitPipes (rest.drop spaces) next cmds
      else splitPipes rest (pos + 1) cmds
termination_by rest.length
decreasing_by
  all_goals simp only [List.length_drop, List.length_cons]
  all_goals omega

/-- The strings at `pipe_cmds`, each `'|'` being a terminator now. -/
def pipeCmds (line : Text) : List Text :=
  if line = [] then []
  else
    let buf := line.map fun c => if c = verticalBar then 0 else c
    (splitPipes line 0 [0]).map fun start => cString (buf.drop start)

/-- The stages that `main` splits from what is typed. -/
def typedStages (keys : List (BitVec 8)) : List Text :=
  ((editLine keys []).map pipeCmds).getD []

/-! ## `parse_input` -/

/-- A `char` buffer, and the indices that were written. -/
structure CharBuf where
  cell : ℕ → BitVec 8
  writes : List ℕ

def CharBuf.write (buf : CharBuf) (j : ℕ) (c : BitVec 8) : CharBuf where
  cell := fun k => if k = j then c else buf.cell k
  writes := buf.writes ++ [j]

/-- `while (input[i] == ' ') i++`, on what is left of the input. -/
def skipSpaces (input : Text) : Text := input.dropWhile (· = space)

/-- The copy loop of a word from index `j` on, with the terminator behind it, and
what is left of the input. -/
def copyWord : Text → ℕ → CharBuf → CharBuf × Text
  | [], j, buf => (buf.write j 0, [])
  | c :: rest, j, buf =>
      if c = space then (buf.write j 0, c :: rest)
      else copyWord rest (j + 1) (buf.write j c)

/-- `cmd`, `a1` and `a2`. -/
def parseInput (input : Text) (cmd a1 a2 : CharBuf) : CharBuf × CharBuf × CharBuf :=
  let cmd := copyWord (skipSpaces input) 0 cmd
  let a1 := copyWord (skipSpaces cmd.2) 0 a1
  let a2 := copyWord (skipSpaces a1.2) 0 a2
  (cmd.1, a1.1, a2.1)

/-! ## What the buffers should hold -/

@[simp] def cmdSize : ℕ := 64
@[simp] def argSize : ℕ := 128

/-- A buffer of `size` bytes was written inside, and holds the string `word`. -/
structure CharBuf.Holds (buf : CharBuf) (size : ℕ) (word : Text) : Prop where
  inside : ∀ j ∈ buf.writes, j < size
  terminated : ∃ k < size, buf.cell k = 0
  string : cString ((List.range size).map buf.cell) = word

/-- Word `k` of a stage, or the empty one. -/
def wordAt (stage : Text) (k : ℕ) : Text := ((words space stage)[k]?).getD []

/-- Whatever is in the buffers before, `parse_input` leaves the first three words
in them. -/
def ParseExact (stage : Text) : Prop :=
  ∀ cmd a1 a2 : ℕ → BitVec 8,
    let bufs := parseInput stage ⟨cmd, []⟩ ⟨a1, []⟩ ⟨a2, []⟩
    bufs.1.Holds cmdSize (wordAt stage 0) ∧ bufs.2.1.Holds argSize (wordAt stage 1) ∧
      bufs.2.2.Holds argSize (wordAt stage 2)

/-- The first three words leave room for their terminators. -/
def WordsFit (stage : Text) : Prop :=
  (wordAt stage 0).length < cmdSize ∧ (wordAt stage 1).length < argSize ∧
    (wordAt stage 2).length < argSize

/-! ## The line -/

variable {keys : List (BitVec 8)} {line stage : Text}

/-- The characters that a line can hold. -/
def Typable (c : BitVec 8) : Prop := c ≠ 0 ∧ c ≠ newline ∧ c ≠ backspace

instance (c : BitVec 8) : Decidable (Typable c) := inferInstanceAs (Decidable (_ ∧ _ ∧ _))

theorem editLine_bounds {start : Text} (hlen : start.length ≤ 255) (hstart : ∀ c ∈ start, Typable c)
    (h : editLine keys start = some line) : line.length ≤ 255 ∧ ∀ c ∈ line, Typable c := by
  induction keys generalizing start with
  | nil => cases h
  | cons c keys ih =>
      rw [editLine] at h
      split_ifs at h with hzero hnl hback hroom
      · exact ih hlen hstart h
      · cases h
        exact ⟨hlen, hstart⟩
      · refine ih ?_ (fun c hc => hstart c (List.mem_of_mem_dropLast hc)) h
        rw [List.length_dropLast]
        omega
      · refine ih ?_ ?_ h
        · rw [List.length_append, List.length_singleton]
          omega
        · intro d hd
          rcases List.mem_append.mp hd with hd | hd
          · exact hstart d hd
          · rw [List.mem_singleton] at hd
            exact hd ▸ ⟨hzero, hnl, hback⟩
      · exact ih hlen hstart h

theorem editLine_typed {start : Text} (hlen : (start ++ line).length ≤ 255)
    (hline : ∀ c ∈ line, Typable c) :
    editLine (line ++ [newline]) start = some (start ++ line) := by
  induction line generalizing start with
  | nil =>
      rw [List.append_nil]
      rfl
  | cons c line ih =>
      obtain ⟨hzero, hnl, hback⟩ := hline c List.mem_cons_self
      have hsplit : start ++ c :: line = start ++ [c] ++ line := by simp
      have hroom : start.length < 255 := by
        rw [List.length_append, List.length_cons] at hlen
        omega
      rw [List.cons_append, editLine, if_neg hzero, if_neg hnl, if_neg hback, if_pos hroom,
        ih (hsplit ▸ hlen) fun d hd => hline d (List.mem_cons_of_mem _ hd), hsplit]

/-- The lines that can be typed: up to 255 characters, none of them a zero byte, a
newline or a backspace. -/
theorem typed_line_iff (line : Text) :
    (∃ keys, editLine keys [] = some line) ↔ line.length ≤ 255 ∧ ∀ c ∈ line, Typable c := by
  constructor
  · rintro ⟨keys, h⟩
    exact editLine_bounds (Nat.zero_le _) (fun c hc => absurd hc List.not_mem_nil) h
  · rintro ⟨hlen, hline⟩
    exact ⟨line ++ [newline], editLine_typed hlen hline⟩

/-! ## The words of a stage -/

theorem words_eq_nil {input : Text} (h : skipSpaces input = []) : words space input = [] := by
  rw [← words_dropWhile, show input.dropWhile (· = space) = [] from h, words_nil]

theorem wordAt_zero (input : Text) :
    wordAt input 0 = (skipSpaces input).takeWhile (· ≠ space) := by
  unfold wordAt
  by_cases h : skipSpaces input = []
  · rw [words_eq_nil h, h]
    rfl
  · rw [words_eq h]
    rfl

theorem wordAt_succ (input : Text) (k : ℕ) :
    wordAt input (k + 1) = wordAt ((skipSpaces input).dropWhile (· ≠ space)) k := by
  unfold wordAt
  by_cases h : skipSpaces input = []
  · rw [words_eq_nil h, h]
    rfl
  · rw [words_eq h]
    rfl

/-! ## One copy loop -/

/-- The loop goes on to the end of the word, and nothing else is written. -/
theorem copyWord_spec (input : Text) (j : ℕ) (buf : CharBuf) :
    let word := input.takeWhile (· ≠ space)
    (copyWord input j buf).2 = input.dropWhile (· ≠ space) ∧
    (copyWord input j buf).1.writes = buf.writes ++ List.range' j (word.length + 1) ∧
    ∀ k, (copyWord input j buf).1.cell k =
      if j ≤ k ∧ k ≤ j + word.length then word.getD (k - j) 0 else buf.cell k := by
  have hend : ∀ k, (buf.write j 0).cell k =
      if j ≤ k ∧ k ≤ j + 0 then ([] : Text).getD (k - j) 0 else buf.cell k := by
    intro k
    have hsame : j ≤ k ∧ k ≤ j + 0 ↔ k = j := by omega
    rw [if_congr hsame rfl rfl]
    rfl
  induction input generalizing j buf with
  | nil => exact ⟨rfl, rfl, hend⟩
  | cons c input ih =>
      by_cases hc : c = space
      · have hword : (c :: input).takeWhile (· ≠ space) = [] := by simp [hc]
        rw [copyWord, if_pos hc, hword]
        exact ⟨by simp [hc], rfl, hend⟩
      · have hword : (c :: input).takeWhile (· ≠ space) = c :: input.takeWhile (· ≠ space) := by
          simp [hc]
        obtain ⟨hrest, hwrites, hcell⟩ := ih (j + 1) (buf.write j c) (by
          intro k
          have hsame : j + 1 ≤ k ∧ k ≤ j + 1 + 0 ↔ k = j + 1 := by omega
          rw [if_congr hsame rfl rfl]
          rfl)
        rw [copyWord, if_neg hc, hword]
        generalize input.takeWhile (· ≠ space) = word at *
        refine ⟨?_, ?_, ?_⟩
        · rw [hrest, List.dropWhile_cons_of_pos (by simpa using hc)]
        · rw [hwrites, CharBuf.write, List.append_assoc, List.singleton_append, List.length_cons]
          rfl
        · intro k
          rw [hcell, List.length_cons]
          by_cases hk : k = j
          · subst hk
            rw [if_neg (by omega), if_pos (by omega), Nat.sub_self]
            exact if_pos rfl
          · have hsame : j + 1 ≤ k ∧ k ≤ j + 1 + word.length ↔
                j ≤ k ∧ k ≤ j + (word.length + 1) := by omega
            rw [if_congr hsame rfl rfl]
            split
            · next hin =>
                obtain ⟨i, rfl⟩ : ∃ i, k = j + 1 + i := ⟨k - (j + 1), by omega⟩
                have hi : j + 1 + i - j = i + 1 := by omega
                rw [Nat.add_sub_cancel_left, hi, List.getD_cons_succ]
            · exact if_neg hk

/-- A buffer that is written from the start holds the word exactly if the
terminator is inside. -/
theorem copyWord_holds_iff {input : Text} (hzero : (0 : BitVec 8) ∉ input)
    (cell : ℕ → BitVec 8) (size : ℕ) :
    (copyWord input 0 ⟨cell, []⟩).1.Holds size (input.takeWhile (· ≠ space)) ↔
      (input.takeWhile (· ≠ space)).length < size := by
  obtain ⟨-, hwrites, hcell⟩ := copyWord_spec input 0 ⟨cell, []⟩
  have hword : (0 : BitVec 8) ∉ input.takeWhile (· ≠ space) :=
    fun hmem => hzero ((List.takeWhile_prefix _).subset hmem)
  generalize (copyWord input 0 ⟨cell, []⟩).1 = buf at *
  generalize input.takeWhile (· ≠ space) = word at *
  rw [List.nil_append] at hwrites
  constructor
  · intro h
    apply h.inside
    rw [hwrites]
    exact List.mem_range'_1.mpr ⟨Nat.zero_le _, by omega⟩
  · intro hfit
    have hlast : buf.cell word.length = 0 := by
      rw [hcell, if_pos ⟨Nat.zero_le _, by omega⟩]
      rw [List.getD_eq_getElem?_getD, List.getElem?_eq_none (by omega)]
      rfl
    refine ⟨?_, ⟨_, hfit, hlast⟩, ?_⟩
    · intro j hj
      rw [hwrites, List.mem_range'_1] at hj
      omega
    · obtain ⟨m, rfl⟩ : ∃ m, size = word.length + (1 + m) := ⟨size - word.length - 1, by omega⟩
      have hchars : (List.range word.length).map buf.cell = word := by
        apply List.ext_getElem
        · rw [List.length_map, List.length_range]
        · intro k hk hk'
          rw [List.getElem_map, List.getElem_range, hcell, if_pos ⟨Nat.zero_le _, by omega⟩,
            Nat.sub_zero, List.getD_eq_getElem?_getD, List.getElem?_eq_getElem hk',
            Option.getD_some]
      rw [List.range_add, List.map_append, hchars, Nat.add_comm 1 m, List.range_succ_eq_map,
        List.map_cons, List.map_cons, Nat.add_zero, hlast, cString, List.takeWhile_append_of_pos,
        List.takeWhile_cons_of_neg (by simp), List.append_nil]
      intro c hc
      refine decide_eq_true ?_
      rintro rfl
      exact hword hc

/-! ## Parsing -/

theorem not_mem_skipSpaces {input : Text} (h : (0 : BitVec 8) ∉ input) :
    (0 : BitVec 8) ∉ skipSpaces input :=
  fun hmem => h ((List.dropWhile_suffix _).subset hmem)

theorem not_mem_behind {input : Text} (h : (0 : BitVec 8) ∉ input) :
    (0 : BitVec 8) ∉ (skipSpaces input).dropWhile (· ≠ space) :=
  fun hmem => not_mem_skipSpaces h ((List.dropWhile_suffix _).subset hmem)

theorem not_mem_stage (h : stage ∈ typedStages keys) : (0 : BitVec 8) ∉ stage := by
  unfold typedStages at h
  cases hline : editLine keys [] with
  | none =>
      rw [hline] at h
      exact absurd h List.not_mem_nil
  | some line =>
      rw [hline] at h
      change stage ∈ pipeCmds line at h
      unfold pipeCmds at h
      split at h
      · exact absurd h List.not_mem_nil
      · obtain ⟨start, -, rfl⟩ := List.mem_map.mp h
        intro hmem
        simpa using List.mem_takeWhile_imp hmem

/-- **When parsing stays inside its buffers**: for every stage of every line that is
typed, exactly when its first three words are shorter than the buffers. -/
theorem parse_exact_iff (h : stage ∈ typedStages keys) : ParseExact stage ↔ WordsFit stage := by
  have hzero := not_mem_stage h
  have hzero' := not_mem_behind hzero
  have hzero'' := not_mem_behind hzero'
  have hrest : ∀ (input : Text) (buf : CharBuf), (copyWord (skipSpaces input) 0 buf).2 =
      (skipSpaces input).dropWhile (· ≠ space) := fun input buf => (copyWord_spec _ 0 buf).1
  unfold ParseExact WordsFit parseInput
  dsimp only
  rw [wordAt_succ stage 0, wordAt_succ stage 1, wordAt_succ _ 0]
  simp only [hrest, wordAt_zero, copyWord_holds_iff (not_mem_skipSpaces hzero),
    copyWord_holds_iff (not_mem_skipSpaces hzero'),
    copyWord_holds_iff (not_mem_skipSpaces hzero'')]
  exact ⟨fun hall => hall (fun _ => 0) (fun _ => 0) (fun _ => 0), fun hfit _ _ _ => hfit⟩

/-! ## A line without a pipe -/

theorem splitPipes_plain (hbar : verticalBar ∉ line) (pos : ℕ) (cmds : List ℕ) :
    splitPipes line pos cmds = cmds := by
  induction line generalizing pos with
  | nil => rw [splitPipes]
  | cons c line ih =>
      rw [List.mem_cons, not_or] at hbar
      rw [splitPipes, if_neg (Ne.symm hbar.1), ih hbar.2]

/-- The line is the only stage. -/
theorem typedStages_plain (line : Text) (hne : line ≠ []) (hlen : line.length ≤ 255)
    (hline : ∀ c ∈ line, Typable c) (hbar : verticalBar ∉ line) :
    typedStages (line ++ [newline]) = [line] := by
  have hedit : editLine (line ++ [newline]) [] = some line := editLine_typed hlen hline
  have hkeep : line.map (fun c => if c = verticalBar then 0 else c) = line := by
    refine (List.map_congr_left fun c hc => ?_).trans (List.map_id line)
    have hne : c ≠ verticalBar := fun heq => hbar (heq ▸ hc)
    exact if_neg hne
  have hzero : (0 : BitVec 8) ∉ line := fun hmem => (hline 0 hmem).1 rfl
  rw [typedStages, hedit]
  change pipeCmds line = [line]
  rw [pipeCmds, if_neg hne]
  dsimp only
  rw [hkeep, splitPipes_plain hbar, List.map_singleton, List.drop_zero, cString_of_no_zero hzero]

/-- The keys of `cat a`. -/
theorem parse_exact_cat :
    let keys : List (BitVec 8) := [0x63, 0x61, 0x74, 0x20, 0x61, newline]
    [0x63, 0x61, 0x74, 0x20, 0x61] ∈ typedStages keys ∧
    (ParseExact [0x63, 0x61, 0x74, 0x20, 0x61] ↔ WordsFit [0x63, 0x61, 0x74, 0x20, 0x61]) := by
  intro keys
  have hstage : [0x63, 0x61, 0x74, 0x20, 0x61] ∈ typedStages keys := by
    have hplain := typedStages_plain [0x63, 0x61, 0x74, 0x20, 0x61] (by decide)
      (by decide) (by decide) (by decide)
    exact hplain ▸ List.mem_singleton_self _
  exact ⟨hstage, parse_exact_iff hstage⟩

/-- A word of 64 letters: its terminator is written behind `cmd`. -/
theorem parse_overruns_cmd :
    let keys : List (BitVec 8) := List.replicate 64 0x61 ++ [newline]
    List.replicate 64 0x61 ∈ typedStages keys ∧
    (∀ cmd a1 a2 : CharBuf,
      64 ∈ (parseInput (List.replicate 64 0x61) cmd a1 a2).1.writes) ∧
    ¬ ParseExact (List.replicate 64 0x61) := by
  intro keys
  have hplain := typedStages_plain (List.replicate 64 0x61) (by decide) (by decide)
    (by decide) (by decide)
  have hword : (skipSpaces (List.replicate 64 0x61)).takeWhile (· ≠ space) =
      List.replicate 64 0x61 := by decide
  have hwrites : ∀ cmd a1 a2 : CharBuf,
      64 ∈ (parseInput (List.replicate 64 0x61) cmd a1 a2).1.writes := by
    intro cmd a1 a2
    have hspec := (copyWord_spec (skipSpaces (List.replicate 64 0x61)) 0 cmd).2.1
    rw [hword, List.length_replicate] at hspec
    change 64 ∈ (copyWord (skipSpaces (List.replicate 64 0x61)) 0 cmd).1.writes
    rw [hspec]
    exact List.mem_append_right _ (by decide)
  refine ⟨hplain ▸ List.mem_singleton_self _, hwrites, fun hexact => ?_⟩
  have hlt := (hexact (fun _ => 0) (fun _ => 0) (fun _ => 0)).1.inside 64 (hwrites ..)
  exact absurd hlt (by decide)

end RendangOS.Shell
