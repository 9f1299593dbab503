import RendangOS.Shell.Session

/-!
# The loop of the shell

`main` reads characters into a line, cuts the line into stages and executes them
one after the other, for ever. A session is a run of it from the welcome message
on; what the commands keep holds in all of it.
-/

namespace RendangOS.Shell

open Ext2 NodeStore

/-! ## `main` -/

/-- Where `main` is. -/
inductive Doing where
  /-- Before `getchar`, with the characters in `input_buf`. -/
  | reading (line : Text)
  /-- Before stage `idx` of `count`, with the stages that are left. -/
  | executing (count idx : ℕ) (stages : List Text)
  /-- In the loop of `cmd_quit`. -/
  | halted

/-- `main` with all that it works on. -/
structure MainLoop where
  console : Console
  doing : Doing

def welcomeLines : List (Text × BitVec 8) :=
  [([newline], white),
    (message "======================================\n", cyan),
    (message "     RendangOS Shell v1.0\n", green),
    (message "     Running in USER MODE (Ring 3)\n", yellow),
    (message "     Type 'help' for commands\n", white),
    (message "======================================\n", cyan),
    ([newline], white)]

def Console.prompt (w : Console) : MainLoop where
  console := w.say [(message "User@RendangOS:", green), (w.sh.cwd, yellow), (message "$ ", white)]
  doing := .reading []

/-- The shell before its first message. -/
def Console.fresh (s : Fs) : Console where
  sh := .start
  s := s
  st := ⟨[], [], 0, false, false, []⟩

/-- The shell at its first prompt. -/
def MainLoop.start (s : Fs) : MainLoop := ((Console.fresh s).say welcomeLines).prompt

/-- One turn of the loop over the characters, with the result of `getchar`. -/
def readKey (w : Console) (line : Text) (c : BitVec 8) : MainLoop :=
  if c = 0 then ⟨w, .reading line⟩
  else if c = newline then
    let w := { w with st := puts w.st [newline] white }
    if line = [] then w.prompt
    else
      let stages := pipeCmds line
      ⟨{ w with st := pipeReset w.st }, .executing stages.length 0 stages⟩
  else if c = backspace then
    if line = [] then ⟨w, .reading line⟩
    else ⟨{ w with st := putchar w.st backspace white }, .reading line.dropLast⟩
  else if line.length < 255 then
    ⟨{ w with st := putchar w.st c white }, .reading (line ++ [c])⟩
  else ⟨w, .reading line⟩

/-! ## Sessions -/

/-- The command of a stage. -/
def stageCommand (stage : Text) : Option ShellCommand :=
  (parsed stage).map fun args => ShellCommand.parse args.1 args.2.1 args.2.2

/-- What is seen of a turn of `main`: a character, a stage with the names it may take
away, or the end of a line. -/
inductive ShellEvent where
  | key (c : BitVec 8)
  | stage (text : Text) (takes : List (ℕ × EntryName))
  | lineDone

/-- The turns of `main` in which each command is one that `ok` allows. -/
inductive MainLoop.Step (ok : Env → Console → ShellCommand → Prop) :
    MainLoop → ShellEvent → MainLoop → Prop
  | key {w : Console} {line : Text} (c : BitVec 8) :
      Step ok ⟨w, .reading line⟩ (.key c) (readKey w line c)
  | stage {w w' : Console} {env : Env} {turns count idx : ℕ} {stage : Text} {rest : List Text}
      {c : ShellCommand} : stageCommand stage = some c → ok env w c →
      stageTurn env turns count idx stage w = .next w' →
      Step ok ⟨w, .executing count idx (stage :: rest)⟩ (.stage stage (c.takes env w))
        ⟨w', .executing count (idx + 1) rest⟩
  | quit {w w' : Console} {env : Env} {turns count idx : ℕ} {stage : Text} {rest : List Text} :
      stageTurn env turns count idx stage w = .halted w' →
      Step ok ⟨w, .executing count idx (stage :: rest)⟩ (.stage stage []) ⟨w', .halted⟩
  | lineDone {w : Console} {count idx : ℕ} :
      Step ok ⟨w, .executing count idx []⟩ .lineDone
        (Console.prompt { w with st := pipeReset w.st })

def shellSystem (ok : Env → Console → ShellCommand → Prop) : System ShellEvent where
  State := MainLoop
  step := MainLoop.Step ok

def ShellEvent.takes : ShellEvent → List (ℕ × EntryName)
  | .stage _ takes => takes
  | _ => []

variable {env : Env} {s₀ : Fs} {w w' : Console} {m m' : MainLoop} {line : Text} {c : BitVec 8}
  {event : ShellEvent} {events : List ShellEvent} {name : EntryName} {p : ℕ}

/-! ## One turn -/

theorem Kept.output (h : Kept w) {st : Pipes} (hst : st.Fit) : Kept { w with st := st } :=
  ⟨h.reachable, h.here, h.path, h.proper, h.fits, hst⟩

theorem Kept.say (h : Kept w) (lines : List (Text × BitVec 8)) : Kept (w.say lines) :=
  h.output ((Used.say .refl lines).fit h.pipes)

theorem pipeReset_fit (st : Pipes) : (pipeReset st).Fit :=
  ⟨(by decide : 0 < pipeBufferSize), (by decide : 0 < pipeBufferSize), Nat.le_refl 0⟩

theorem setModes_fit {st : Pipes} (h : st.Fit) (count idx : ℕ) : (setModes st count idx).Fit := by
  have hout : ∀ enable, (pipeSetOutputMode st enable).Fit := by
    intro enable
    cases enable with
    | false => exact ⟨h.output, h.input, h.pos⟩
    | true => exact ⟨(by decide : 0 < pipeBufferSize), h.input, h.pos⟩
  have hmode := hout (decide (idx < count - 1))
  unfold setModes
  dsimp only
  split
  · split
    · exact ⟨hmode.output, hmode.input, Nat.zero_le _⟩
    · exact hmode
  · exact h

theorem transfer_fit {st : Pipes} (h : st.Fit) : (pipeTransferOutputToInput st).Fit :=
  ⟨(by decide : 0 < pipeBufferSize), h.output, Nat.zero_le _⟩

theorem Kept.readKey (h : Kept w) (line : Text) (c : BitVec 8) :
    Kept (readKey w line c).console := by
  unfold Shell.readKey
  dsimp only
  split_ifs
  · exact h
  · exact (h.output ((Used.puts .refl _ white).fit h.pipes)).say _
  · exact h.output (pipeReset_fit _)
  · exact h
  · exact h.output ((Used.putchar .refl _ white).fit h.pipes)
  · exact h.output ((Used.putchar .refl _ white).fit h.pipes)
  · exact h

theorem sane_output {c : ShellCommand} (st : Pipes) :
    Sane env { w with st := st } c ↔ Sane env w c := by
  cases c <;> exact Iff.rfl

theorem takes_output (c : ShellCommand) (st : Pipes) :
    c.takes env { w with st := st } = c.takes env w := by
  cases c <;> rfl

/-- The console behind a stage that is not the last one has its output as input. -/
def passOn (count idx : ℕ) (w : Console) : Console :=
  if idx < count - 1 then { w with st := pipeTransferOutputToInput w.st } else w

theorem stageTurn_next {turns count idx : ℕ} {stage : Text}
    (h : stageTurn env turns count idx stage w = .next w') :
    ∃ cmd w₁, stageCommand stage = some cmd ∧
      cmd.run env turns { w with st := setModes w.st count idx } = .next w₁ ∧
      w' = passOn count idx w₁ := by
  unfold stageTurn at h
  split at h
  · cases h
  · next cmd arg1 arg2 hparsed =>
    dsimp only at h
    split at h
    · next w₁ hrun =>
      obtain rfl := Outcome.next.inj h
      exact ⟨_, w₁, by rw [stageCommand, hparsed]; rfl, hrun, rfl⟩
    · next hno => exact absurd h (hno w')

theorem run_halted {turns : ℕ} {cmd : ShellCommand} (h : cmd.run env turns w = .halted w') :
    w' = w.say quitLines := by
  cases cmd with
  | quit => exact (Outcome.halted.inj h).symm
  | mv src dst =>
      change w.mv env src dst = .halted w' at h
      unfold Console.mv at h
      dsimp only at h
      split at h <;> cases h
  | find searchName =>
      change w.find env turns searchName = .halted w' at h
      unfold Console.find at h
      split at h
      · cases h
      · split at h <;> cases h
  | cd | ls | mkdir | cat | cp | rm | grep | wc | echo | clear | help | testuser | pwd | unknown
  | nothing => cases h

theorem stageTurn_halted {turns count idx : ℕ} {stage : Text}
    (h : stageTurn env turns count idx stage w = .halted w') :
    w' = Console.say { w with st := setModes w.st count idx } quitLines := by
  unfold stageTurn at h
  split at h
  · cases h
  · dsimp only at h
    split at h
    · cases h
    · exact run_halted h

theorem MainLoop.Step.keeps (hstep : MainLoop.Step Sane m event m') (h : Kept m.console) :
    Kept m'.console ∧ Calls m.console.s event.takes m'.console.s := by
  cases hstep with
  | @key w line c =>
      refine ⟨h.readKey line c, ?_⟩
      have hvol : (readKey w line c).console.s = w.s := by
        unfold readKey
        dsimp only
        split_ifs <;> rfl
      exact hvol ▸ .refl w.s _
  | @stage w w' env turns count idx stage rest c hc hsane hturn =>
      obtain ⟨cmd, w₁, hcmd, hrun, rfl⟩ := stageTurn_next hturn
      obtain rfl : c = cmd := Option.some.inj (hc.symm.trans hcmd)
      have hmodes := h.output (setModes_fit h.pipes count idx)
      have hsane' := (sane_output (setModes w.st count idx)).mpr hsane
      have hkept := hmodes.run hsane' hrun
      have hcalls := (ShellCommand.effect hmodes.reachable hmodes.here hsane' hrun).calls
      rw [takes_output] at hcalls
      unfold passOn
      split
      · exact ⟨hkept.output (transfer_fit hkept.pipes), hcalls⟩
      · exact ⟨hkept, hcalls⟩
  | @quit w w' env turns count idx stage rest hturn =>
      rw [stageTurn_halted hturn]
      exact ⟨(h.output (setModes_fit h.pipes count idx)).say quitLines, .refl w.s _⟩
  | @lineDone w count idx =>
      exact ⟨(h.output (pipeReset_fit w.st)).say _, .refl w.s _⟩

/-! ## Every run -/

end RendangOS.Shell
