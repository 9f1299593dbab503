import RendangOS.Shell.Main

/-!
# Pipelines

A line may pass the output of `cat` through any number of `grep` stages. Each of them
but the last one fills `pipe_output_buffer`, and the next one cuts its lines out of
the copy in `pipe_input_buffer`. What comes out at the end is what one search for
all patterns would print.
-/

namespace RendangOS.Shell

open Ext2 Lines

variable {env : Env} {w w' : Console} {st : Pipes} {pattern text : Text} {lines : List Text}

/-! ## Lines that are put out -/

/-- The lines where the output goes to: in white on the terminal, or in the pipe. -/
def Pipes.put (st : Pipes) (lines : List Text) : Pipes :=
  if st.pipe_mode_output = true then st.pipe (unlines newline lines)
  else st.emit (lines.flatMap printedLine)

/-- The lines fit into what is left of the pipe. -/
def Pipes.Room (st : Pipes) (lines : List Text) : Prop :=
  st.pipe_mode_output = true →
    st.pipe_output_buffer.length + (unlines newline lines).length ≤ 4095

theorem put_pipe (hout : st.pipe_mode_output = true) (lines : List Text) :
    st.put lines = st.pipe (unlines newline lines) := if_pos hout

theorem put_emit (hout : st.pipe_mode_output = false) (lines : List Text) :
    st.put lines = st.emit (lines.flatMap printedLine) :=
  if_neg (by rw [hout]; exact Bool.false_ne_true)

@[simp] theorem put_nil (st : Pipes) : st.put [] = st := by
  unfold Pipes.put Pipes.pipe Pipes.emit unlines
  split <;> simp

@[simp] theorem put_mode (st : Pipes) (lines : List Text) :
    (st.put lines).pipe_mode_output = st.pipe_mode_output := by
  unfold Pipes.put
  split <;> rfl

theorem put_input (st : Pipes) (lines : List Text) :
    (st.put lines).pipe_mode_input = st.pipe_mode_input ∧
      (st.put lines).pipe_input_buffer = st.pipe_input_buffer ∧
      (st.put lines).pipe_input_pos = st.pipe_input_pos := by
  unfold Pipes.put
  split <;> exact ⟨rfl, rfl, rfl⟩

theorem put_put (st : Pipes) (lines lines' : List Text) :
    (st.put lines).put lines' = st.put (lines ++ lines') := by
  cases hout : st.pipe_mode_output with
  | true =>
      rw [put_pipe (by rw [put_mode, hout]), put_pipe hout, put_pipe hout, pipe_pipe, unlines,
        unlines, unlines, List.flatMap_append]
  | false =>
      rw [put_emit (by rw [put_mode, hout]), put_emit hout, put_emit hout, emit_emit,
        List.flatMap_append]

/-- With the pipe read up to `pos`. -/
def Pipes.readTo (st : Pipes) (pos : ℕ) : Pipes := { st with pipe_input_pos := pos }

theorem readTo_put (st : Pipes) (pos : ℕ) (lines : List Text) :
    (st.readTo pos).put lines = (st.put lines).readTo pos := by
  unfold Pipes.put Pipes.readTo
  dsimp only
  split <;> rfl

/-- The room that is left behind the first lines. -/
theorem Pipes.Room.append {lines' : List Text} (h : st.Room (lines ++ lines')) :
    st.Room lines ∧ (st.put lines).Room lines' := by
  have hlen : (unlines newline (lines ++ lines')).length =
      (unlines newline lines).length + (unlines newline lines').length := by
    rw [unlines, List.flatMap_append, List.length_append]
    rfl
  refine ⟨fun hout => ?_, fun hout => ?_⟩
  · have hfit := h hout
    omega
  · rw [put_mode] at hout
    have hfit := h hout
    rw [put_pipe hout, Pipes.pipe, List.length_append]
    omega

theorem foldl_pipePut (str : Text) {out : Text} (hroom : out.length + str.length ≤ 4095) :
    str.foldl pipePut out = out ++ str := by
  induction str generalizing out with
  | nil => exact (List.append_nil out).symm
  | cons c str ih =>
      rw [List.length_cons] at hroom
      rw [List.foldl_cons, pipePut_eq (by omega), ih (by simp; omega), List.append_assoc]
      rfl

theorem grepLine_put (line : Text) (hroom : st.Room ([line].filter (contains pattern))) :
    grepLine pattern st line = st.put ([line].filter (contains pattern)) := by
  cases hout : st.pipe_mode_output with
  | false => rw [grepLine_emit hout, put_emit hout]
  | true =>
      have hfit := hroom hout
      unfold grepLine
      rw [strContains_eq]
      change (if contains pattern line = true then _ else _) = _
      by_cases hp : contains pattern line = true
      · rw [List.filter_cons_of_pos hp, List.filter_nil] at hfit ⊢
        rw [unlines, List.flatMap_singleton, List.length_append, List.length_singleton] at hfit
        have hline : puts st line white = st.pipe line := by
          rw [puts, if_pos hout, foldl_pipePut line (by omega)]
          rfl
        rw [if_pos hp, hline, puts_pipe (by exact hout) (by simp [Pipes.pipe]; omega), pipe_pipe,
          put_pipe hout, unlines, List.flatMap_singleton]
      · rw [if_neg hp, List.filter_cons_of_neg hp, List.filter_nil, put_nil]

/-! ## One stage -/

/-- `cmd_grep` puts out the pieces with the pattern, of all that is left in the pipe. -/
theorem grepPipe_put (hpattern : pattern ≠ []) (st : Pipes) (hin : st.pipe_mode_input = true)
    (hzero : (0 : BitVec 8) ∉ st.pipe_input_buffer)
    (hroom : st.Room ((pieces newline 255 (st.pipe_input_buffer.drop st.pipe_input_pos)).filter
      (contains pattern))) :
    ∃ pos, grepPipe pattern st = (st.put
      ((pieces newline 255 (st.pipe_input_buffer.drop st.pipe_input_pos)).filter
        (contains pattern))).readTo pos := by
  by_cases hleft : st.pipe_input_pos < st.pipe_input_buffer.length
  · obtain ⟨hline, hrest⟩ := getlineLoop_eq st.pipe_input_buffer 255 st.pipe_input_pos
    have hlt := getlineLoop_lt st.pipe_input_buffer 254 hleft
    have hget := pipeGetline_eq hin hleft hzero
    rw [pieces_cons (by decide) (by simpa using hleft), ← hline, ← hrest] at hroom ⊢
    generalize getlineLoop st.pipe_input_buffer 255 st.pipe_input_pos = loop at *
    obtain ⟨line, pos⟩ := loop
    change pipeGetline st lineSize = (decide (0 < line.length ∨
      pos < st.pipe_input_buffer.length), line, st.readTo pos) at hget
    dsimp only at hlt hroom ⊢
    by_cases hmore : 0 < line.length ∨ pos < st.pipe_input_buffer.length
    · rw [decide_eq_true hmore] at hget
      rw [← List.singleton_append, List.filter_append] at hroom ⊢
      obtain ⟨hfirst, hothers⟩ := hroom.append
      have hgrep : grepLine pattern (st.readTo pos) line =
          (st.put ([line].filter (contains pattern))).readTo pos := by
        rw [grepLine_put line (by exact hfirst), readTo_put]
      obtain ⟨hin', hbuf, -⟩ := put_input st ([line].filter (contains pattern))
      rw [← hbuf] at hothers hzero ⊢
      obtain ⟨pos', hrec⟩ := grepPipe_put hpattern
        ((st.put ([line].filter (contains pattern))).readTo pos) (hin'.trans hin) hzero hothers
      refine ⟨pos', ?_⟩
      rw [grepPipe_true hget, hgrep, hrec, readTo_put, ← put_put]
      rfl
    · -- the empty line behind the last newline
      rw [decide_eq_false hmore] at hget
      rw [not_or, Nat.not_lt, Nat.not_lt, Nat.le_zero, List.length_eq_zero_iff] at hmore
      rw [grepPipe_false hget, hmore.1, List.drop_eq_nil_of_le hmore.2, pieces_nil,
        List.filter_cons_of_neg (by simp [(contains_search hpattern).nil]), List.filter_nil,
        put_nil]
      exact ⟨pos, rfl⟩
  · have hnone : pipeGetline st lineSize = (false, [], st) := if_pos (Or.inr (not_lt.mp hleft))
    rw [grepPipe_false hnone, List.drop_eq_nil_of_le (not_lt.mp hleft), pieces_nil,
      List.filter_nil, put_nil]
    exact ⟨st.pipe_input_pos, rfl⟩
termination_by st.pipe_input_buffer.length - st.pipe_input_pos
decreasing_by
  change (st.put _).pipe_input_buffer.length - pos < _
  rw [hbuf]
  omega

/-! ## What a stage is fed -/

/-- A search of the text in the pipe is a search of the lines. -/
structure Feed (text : Text) (lines : List Text) : Prop where
  found : ∀ p, p ≠ [] → (∀ l ∈ lines, contains p l = true → l.length ≤ 255) →
    (pieces newline 255 text).filter (contains p) = lines.filter (contains p)
  zero : (0 : BitVec 8) ∉ text
  clean : ∀ l ∈ lines, newline ∉ l ∧ (0 : BitVec 8) ∉ l
  room : (unlines newline lines).length ≤ 4095

theorem feed_unlines (hclean : ∀ l ∈ lines, newline ∉ l ∧ (0 : BitVec 8) ∉ l)
    (hroom : (unlines newline lines).length ≤ 4095) : Feed (unlines newline lines) lines where
  found _ hp hfit :=
    filter_pieces_unlines (contains_search hp) (by decide) (fun l hl => (hclean l hl).1) hfit
  zero := by
    unfold unlines
    rw [List.mem_flatMap]
    rintro ⟨l, hl, hmem⟩
    rw [List.mem_append, List.mem_singleton] at hmem
    exact hmem.elim (hclean l hl).2 (by decide)
  clean := hclean
  room := hroom

/-- What `cmd_grep` leaves in it. -/
theorem Feed.filter (h : Feed text lines) (q : Text → Bool) :
    Feed (unlines newline (lines.filter q)) (lines.filter q) :=
  feed_unlines (fun l hl => h.clean l (List.mem_filter.mp hl).1)
    ((length_flatMap_filter_le _ q lines).trans h.room)

/-! ## The loop over the stages -/

theorem stageTurn_run {turns count idx : ℕ} {stage : Text} {c : ShellCommand} {w₁ : Console}
    (hc : stageCommand stage = some c)
    (hrun : c.run env turns { w with st := setModes w.st count idx } = .next w₁) :
    stageTurn env turns count idx stage w = .next (passOn count idx w₁) := by
  unfold stageTurn
  cases hparsed : parsed stage with
  | none =>
      rw [stageCommand, hparsed] at hc
      cases hc
  | some args =>
      rw [stageCommand, hparsed] at hc
      obtain rfl := Option.some.inj hc
      dsimp only
      rw [hrun]
      rfl

/-- The total contract of a stage, with `P` at its end. -/
def Turns (count idx : ℕ) (stage : Text) (w : Console) (P : Console → Prop) : Prop :=
  ∀ env turns, ∃ c w₁, stageCommand stage = some c ∧ Sane env w c ∧
    stageTurn env turns count idx stage w = .next w₁ ∧ P w₁

/-- The same volume and the same place in it. -/
structure Undisturbed (w w' : Console) : Prop where
  volume : w'.s = w.s
  dir : w'.sh.current_dir_inode = w.sh.current_dir_inode
  cwd : w'.sh.cwd = w.sh.cwd

variable {w₀ : Console} {filename : EntryName} {count idx a : ℕ} {stage : Text}

theorem setModes_later (st : Pipes) (hpos : 0 < idx) (hidx : idx < count) :
    setModes st count idx =
      pipeSetInputMode (pipeSetOutputMode st (decide (idx < count - 1))) true := by
  unfold setModes
  rw [if_pos (by omega), if_pos hpos]

/-- A `grep` behind another stage puts out the lines with its pattern. -/
theorem grep_turns (hfeed : Feed w.st.pipe_input_buffer lines) (hpattern : pattern ≠ [])
    (hfit : ∀ l ∈ lines, contains pattern l = true → l.length ≤ 255) (hpos : 0 < idx)
    (hidx : idx < count) (hstage : stageCommand stage = some (.grep pattern filename)) :
    Turns count idx stage w fun w' => Undisturbed w w' ∧
      if idx < count - 1 then
        w'.st.printed = w.st.printed ∧
          w'.st.pipe_input_buffer = unlines newline (lines.filter (contains pattern))
      else
        w'.st.printed = w.st.printed ++ (lines.filter (contains pattern)).flatMap printedLine := by
  intro env turns
  have hmodes := setModes_later w.st hpos hidx
  generalize hst : setModes w.st count idx = st at hmodes
  have hin : st.pipe_mode_input = true := by rw [hmodes]; rfl
  have hbuf : st.pipe_input_buffer.drop st.pipe_input_pos = w.st.pipe_input_buffer := by
    rw [hmodes]
    rfl
  have hzero : (0 : BitVec 8) ∉ st.pipe_input_buffer := by
    rw [hmodes]
    exact hfeed.zero
  have hfound := hfeed.found pattern hpattern hfit
  have hroom : st.Room (lines.filter (contains pattern)) := by
    intro hout
    have hempty : st.pipe_output_buffer = [] := by
      rw [hmodes] at hout ⊢
      exact if_pos hout
    rw [hempty]
    exact (Nat.le_of_eq (Nat.zero_add _)).trans (hfeed.filter _).room
  obtain ⟨pos, hgrep⟩ := grepPipe_put hpattern st hin hzero (by rwa [hbuf, hfound])
  rw [hbuf, hfound] at hgrep
  have hcmd : cmdGrep env w.s w.sh.toStatics st pattern filename =
      (w.sh.toStatics, (st.put (lines.filter (contains pattern))).readTo pos) := by
    rw [cmdGrep, if_neg hpattern, if_pos hin, hgrep]
  refine ⟨_, _, hstage, trivial, stageTurn_run hstage rfl, ?_⟩
  unfold passOn Console.grep
  dsimp only
  rw [hst, hcmd]
  by_cases hmore : idx < count - 1
  · rw [if_pos hmore, if_pos hmore]
    have hout : st.pipe_mode_output = true := by
      rw [hmodes]
      exact decide_eq_true hmore
    refine ⟨⟨rfl, rfl, rfl⟩, ?_⟩
    rw [put_pipe hout, hmodes, decide_eq_true hmore]
    exact ⟨rfl, List.nil_append _⟩
  · rw [if_neg hmore, if_neg hmore]
    have hout : st.pipe_mode_output = false := by
      rw [hmodes]
      exact decide_eq_false hmore
    refine ⟨⟨rfl, rfl, rfl⟩, ?_⟩
    rw [put_emit hout, hmodes, decide_eq_false hmore]
    rfl

/-- The line holds all patterns. -/
def containsAll (patterns : List Text) (line : Text) : Bool :=
  patterns.all fun pattern => contains pattern line

/-- A `grep` stage for a pattern. -/
def GrepStage (stage pattern : Text) : Prop :=
  pattern ≠ [] ∧ ∃ filename, stageCommand stage = some (.grep pattern filename)

/-- In front of the stages that are left, the pipe holds lines among which their patterns
select `out`; in front of no stage, `out` is printed. -/
inductive Piped (w₀ : Console) (count : ℕ) (out : List Text) : ℕ → List Text → Console → Prop
  | fed {idx : ℕ} {stages patterns lines : List Text} {w : Console} : 0 < idx →
      stages ≠ [] → idx + stages.length = count → Undisturbed w₀ w →
      w.st.printed = w₀.st.printed → List.Forall₂ GrepStage stages patterns →
      Feed w.st.pipe_input_buffer lines →
      (∀ l ∈ lines, ∀ p ∈ patterns.head?, contains p l = true → l.length ≤ 255) →
      lines.filter (containsAll patterns) = out → Piped w₀ count out idx stages w
  | done {w : Console} : Undisturbed w₀ w →
      w.st.printed = w₀.st.printed ++ out.flatMap printedLine → Piped w₀ count out count [] w

theorem Undisturbed.trans {w₁ w₂ w₃ : Console} (h : Undisturbed w₁ w₂) (h' : Undisturbed w₂ w₃) :
    Undisturbed w₁ w₃ :=
  ⟨h'.volume.trans h.volume, h'.dir.trans h.dir, h'.cwd.trans h.cwd⟩

theorem Turns.mono {P P' : Console → Prop} (h : Turns count idx stage w P)
    (hle : ∀ w', P w' → P' w') : Turns count idx stage w P' := by
  intro env turns
  obtain ⟨c, w₁, hc, hsane, hnext, hw₁⟩ := h env turns
  exact ⟨c, w₁, hc, hsane, hnext, hle w₁ hw₁⟩

theorem filter_containsAll (pattern : Text) (patterns lines : List Text) :
    lines.filter (containsAll (pattern :: patterns)) =
      (lines.filter (contains pattern)).filter (containsAll patterns) := by
  rw [List.filter_filter]
  refine List.filter_congr fun l _ => ?_
  rw [containsAll, List.all_cons, Bool.and_comm]
  rfl

/-- One stage: it takes its pattern from those that are left. -/
theorem Piped.turns {out rest : List Text} (h : Piped w₀ count out idx (stage :: rest) w) :
    Turns count idx stage w (Piped w₀ count out (idx + 1) rest) := by
  cases h with
  | @fed _ _ _ lines _ hpos _ hcount hsame hprinted hgreps hfeed hfit hout =>
      cases hgreps with
      | @cons _ pattern _ patterns hgrep hgreps =>
          obtain ⟨hpattern, filename, hstage⟩ := hgrep
          rw [List.length_cons] at hcount
          have hfirst : ∀ l ∈ lines, contains pattern l = true → l.length ≤ 255 :=
            fun l hl => hfit l hl pattern rfl
          refine (grep_turns hfeed hpattern hfirst hpos (by omega) hstage).mono ?_
          rintro w' ⟨hsame', hw'⟩
          rw [filter_containsAll] at hout
          cases rest with
          | nil =>
              cases hgreps
              rw [if_neg (by simp at hcount; omega), hprinted] at hw'
              rw [List.filter_eq_self.mpr fun _ _ => (rfl : containsAll [] _ = true)] at hout
              obtain rfl : idx + 1 = count := hcount
              exact .done (hsame.trans hsame') (hout ▸ hw')
          | cons stage' rest =>
              rw [if_pos (by rw [List.length_cons] at hcount; omega)] at hw'
              refine .fed (Nat.succ_pos idx) (List.cons_ne_nil _ _) (by omega)
                (hsame.trans hsame') (hw'.1.trans hprinted) hgreps (hw'.2 ▸ hfeed.filter _) ?_ hout
              intro l hl _ _ _
              obtain ⟨hl, hp⟩ := List.mem_filter.mp hl
              exact hfirst l hl hp

theorem Piped.out {out : List Text} (h : Piped w₀ count out idx [] w) :
    Undisturbed w₀ w ∧ w.st.printed = w₀.st.printed ++ out.flatMap printedLine := by
  cases h with
  | fed _ hnil => exact absurd rfl hnil
  | done hsame hprinted => exact ⟨hsame, hprinted⟩

/-! ## A line with a pipeline -/

end RendangOS.Shell
