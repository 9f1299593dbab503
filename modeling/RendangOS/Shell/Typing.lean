import RendangOS.Driver.Keyboard
import RendangOS.Shell.Main

/-!
# From the keys to the commands

The interrupt handler fills the ring of the keyboard while the shell reads from it,
edits its line and executes what was typed. Interrupts come at any time, also
between the statements of `get_keyboard_buffer`. Nothing of this shows in what the
shell does: it is a session of its own, its keys are those that were accepted, and
the stages it executes are those of the lines that the keys make up.
-/

namespace RendangOS.Shell

open Ext2 Driver

/-! ## The keyboard and the shell together -/

/-- The keyboard with the reader in the kernel, what has been seen of them, and `main`. -/
structure Typist where
  machine : Machine
  history : History
  main : MainLoop

/-- After the system call with which the shell turns the keyboard on. -/
def Typist.start (s : Fs) : Typist where
  machine := (Driver.run [.activate]).1
  history := (Driver.run [.activate]).2
  main := .start s

inductive TypistEvent where
  | interrupt (scancode : BitVec 8)
  /-- A statement of `get_keyboard_buffer`, but for the last one. -/
  | reads
  | shell (event : ShellEvent)

/-- What `get_keyboard_buffer` returns with its next statement, if that is its last. -/
def Reader.returns : Reader → Option (BitVec 8)
  | .empty => some 0
  | .fetched c => some c
  | .idle | .nonEmpty => none

inductive Typist.Step (ok : Env → Console → ShellCommand → Prop) :
    Typist → TypistEvent → Typist → Prop
  | interrupt {t : Typist} (scancode : BitVec 8) :
      Step ok t (.interrupt scancode)
        ⟨t.machine.step (.isr scancode), t.history.step t.machine (.isr scancode), t.main⟩
  | reads {t : Typist} {line : Text} : t.main.doing = .reading line →
      Reader.returns t.machine.reader = none →
      Step ok t .reads ⟨t.machine.step .statement, t.history.step t.machine .statement, t.main⟩
  | returns {t : Typist} {w : Console} {line : Text} {c : BitVec 8} :
      t.main = ⟨w, .reading line⟩ → Reader.returns t.machine.reader = some c →
      Step ok t (.shell (.key c)) ⟨t.machine.step .statement,
        t.history.step t.machine .statement, readKey w line c⟩
  | executes {t : Typist} {m : MainLoop} {event : ShellEvent} : (∀ c, event ≠ .key c) →
      MainLoop.Step ok t.main event m → Step ok t (.shell event) { t with main := m }

def typistSystem (ok : Env → Console → ShellCommand → Prop) : System TypistEvent where
  State := Typist
  step := Typist.Step ok

/-! ## What is seen of a run -/

def TypistEvent.toShell : TypistEvent → Option ShellEvent
  | .shell event => some event
  | _ => none

/-- What the keyboard sees of an event. -/
def TypistEvent.toDriver : TypistEvent → Option Event
  | .interrupt scancode => some (.isr scancode)
  | .reads => some .statement
  | .shell (.key _) => some .statement
  | .shell _ => none

def ShellEvent.toKey : ShellEvent → Option (BitVec 8)
  | .key c => some c
  | _ => none

def ShellEvent.toStage : ShellEvent → Option Text
  | .stage text _ => some text
  | _ => none

/-- The lines that are complete, and the one that is not. -/
structure Typed where
  lines : List Text
  line : Text

/-- A key, as the line editor takes it. An empty line is no line. -/
def Typed.key (t : Typed) (c : BitVec 8) : Typed :=
  if c = 0 then t
  else if c = newline then if t.line = [] then t else ⟨t.lines ++ [t.line], []⟩
  else if c = backspace then { t with line := t.line.dropLast }
  else if t.line.length < 255 then { t with line := t.line ++ [c] }
  else t

def typed (keys : List (BitVec 8)) : Typed := keys.foldl Typed.key ⟨[], []⟩

/-- The stages of the lines. -/
def Typed.stages (t : Typed) : List Text := t.lines.flatMap pipeCmds

/-- `main` has executed the stages `executed` of what was typed, and holds the rest. -/
def Executes (t : Typed) (executed : List Text) : Doing → Prop
  | .reading line => t.line = line ∧ t.stages = executed
  | .executing _ _ stages => t.line = [] ∧ t.stages = executed ++ stages
  | .halted => ∃ stages, t.stages = executed ++ stages

variable {ok : Env → Console → ShellCommand → Prop} {t t' : Typist} {m m' : MainLoop}
  {event : ShellEvent} {events : List TypistEvent} {w : Console} {line : Text} {c : BitVec 8}
  {k : Typed} {executed : List Text}

/-! ## The shell is a session -/

theorem typist_projects (ok : Env → Console → ShellCommand → Prop) :
    (typistSystem ok).Projects (shellSystem ok) (fun _ => True) Typist.main
      TypistEvent.toShell where
  keeps := fun _ _ _ _ _ => trivial
  step := by
    intro t l t' _ hstep
    cases hstep with
    | interrupt scancode => exact Or.inr ⟨rfl, rfl⟩
    | reads hdoing hreader => exact Or.inr ⟨rfl, rfl⟩
    | @returns w line c hmain hreader =>
        refine Or.inl ⟨.key c, rfl, ?_⟩
        rw [hmain]
        exact .key c
    | executes hne hturn => exact Or.inl ⟨_, rfl, hturn⟩

/-! ## The keys that are read -/

theorem seen_of_not_key (hne : ∀ c, event ≠ .key c) :
    TypistEvent.toDriver (.shell event) = none ∧ event.toKey = none := by
  cases event with
  | key c => exact absurd rfl (hne c)
  | stage text takes => exact ⟨rfl, rfl⟩
  | lineDone => exact ⟨rfl, rfl⟩

/-- What the keyboard goes through. -/
theorem run_machine {t t' : (typistSystem ok).State} (h : (typistSystem ok).Run t events t') :
    (Typist.machine t', Typist.history t') =
      (events.filterMap TypistEvent.toDriver).foldl (fun r e => (r.1.step e, r.2.step r.1 e))
        (Typist.machine t, Typist.history t) := by
  induction h with
  | nil => rfl
  | @cons t t₁ t₂ event events hstep _ ih =>
      rw [ih]
      cases hstep with
      | interrupt scancode => rfl
      | reads hdoing hreader => rfl
      | returns hmain hreader => rfl
      | executes hne hturn => rw [List.filterMap_cons_none (seen_of_not_key hne).1]

/-- What the reader hands out is what the line editor gets. -/
theorem run_yielded {t t' : (typistSystem ok).State} (h : (typistSystem ok).Run t events t') :
    (Typist.history t').yielded.map Prod.fst = (Typist.history t).yielded.map Prod.fst ++
      (events.filterMap TypistEvent.toShell).filterMap ShellEvent.toKey := by
  induction h with
  | nil => exact (List.append_nil _).symm
  | @cons t t₁ t₂ event events hstep _ ih =>
      rw [ih]
      cases hstep with
      | interrupt scancode => rfl
      | @reads line hdoing hreader =>
          have hsame : (t.history.step t.machine .statement).yielded = t.history.yielded := by
            unfold History.step
            cases hr : t.machine.reader with
            | idle => rfl
            | nonEmpty => rfl
            | empty => rw [hr] at hreader; cases hreader
            | fetched c => rw [hr] at hreader; cases hreader
          change (t.history.step t.machine .statement).yielded.map Prod.fst ++ _ = _
          rw [hsame]
          rfl
      | @returns w line c hmain hreader =>
          have hmore : (t.history.step t.machine .statement).yielded.map Prod.fst =
              t.history.yielded.map Prod.fst ++ [c] := by
            unfold History.step
            cases hr : t.machine.reader with
            | idle => rw [hr] at hreader; cases hreader
            | nonEmpty => rw [hr] at hreader; cases hreader
            | empty =>
                rw [hr] at hreader
                obtain rfl := Option.some.inj hreader
                exact List.map_append
            | fetched d =>
                rw [hr] at hreader
                obtain rfl := Option.some.inj hreader
                exact List.map_append
          change (t.history.step t.machine .statement).yielded.map Prod.fst ++ _ = _
          rw [hmore, List.append_assoc]
          rfl
      | @executes m event hne hturn =>
          change _ = _ ++ List.filterMap ShellEvent.toKey (event :: _)
          rw [List.filterMap_cons_none (seen_of_not_key hne).2]

/-! ## The stages that are executed -/

theorem Typed.key_zero (k : Typed) : k.key 0 = k := if_pos rfl

/-- An empty poll changes nothing. -/
theorem typed_filter (keys : List (BitVec 8)) : typed (keys.filter (· ≠ 0)) = typed keys := by
  unfold typed
  generalize (⟨[], []⟩ : Typed) = k
  induction keys generalizing k with
  | nil => rfl
  | cons c keys ih =>
      by_cases hc : c = 0
      · rw [hc, List.filter_cons_of_neg (by simp), List.foldl_cons, Typed.key_zero]
        exact ih k
      · rw [List.filter_cons_of_pos (by simpa using hc), List.foldl_cons, List.foldl_cons]
        exact ih _

theorem Executes.key (h : Executes k executed (.reading line)) (w : Console) (c : BitVec 8) :
    Executes (k.key c) executed (readKey w line c).doing := by
  obtain ⟨rfl, hstages⟩ := h
  unfold Typed.key readKey
  dsimp only
  split_ifs with hzero hnl hempty hback hempty' hroom
  · exact ⟨rfl, hstages⟩
  · exact ⟨hempty, hstages⟩
  · refine ⟨rfl, ?_⟩
    rw [← hstages]
    simp [Typed.stages]
  · exact ⟨by rw [hempty']; rfl, hstages⟩
  · exact ⟨rfl, hstages⟩
  · exact ⟨rfl, hstages⟩
  · exact ⟨rfl, hstages⟩

/-- Behind any turns of `main`. -/
theorem Executes.run {m m' : (shellSystem ok).State} {events : List ShellEvent}
    (hrun : (shellSystem ok).Run m events m') (h : Executes k executed (MainLoop.doing m)) :
    Executes ((events.filterMap ShellEvent.toKey).foldl Typed.key k)
      (executed ++ events.filterMap ShellEvent.toStage) (MainLoop.doing m') := by
  induction hrun generalizing k executed with
  | nil => simpa using h
  | @cons m m₁ m₂ event events hstep _ ih =>
      cases hstep with
      | @key w line c => exact ih (h.key w c)
      | @stage w w' env turns count idx stage rest c hc hok hturn =>
          have hnext : Executes k (executed ++ [stage]) (.executing count (idx + 1) rest) :=
            ⟨h.1, by rw [h.2, List.append_assoc]; rfl⟩
          have hrest := ih hnext
          rw [List.append_assoc] at hrest
          exact hrest
      | @quit w w' env turns count idx stage rest hturn =>
          have hnext : Executes k (executed ++ [stage]) .halted :=
            ⟨rest, by rw [h.2, List.append_assoc]; rfl⟩
          have hrest := ih hnext
          rw [List.append_assoc] at hrest
          exact hrest
      | @lineDone w count idx => exact ih ⟨h.1, by rw [h.2, List.append_nil]⟩

/-- **Every key counts once, whenever it comes**: in every interleaving of interrupts with
the statements of the shell, what the shell does is a session of its own; the stages it
has executed and those it holds are those of the lines made up by the keys it was
handed; these, with the ones still in the ring, are the keys that were accepted; and the
keys that came are those that the scancodes mean. -/
theorem keys_reach_commands {s : Fs} (h : (typistSystem ok).Run (.start s) events t) :
    (shellSystem ok).Run (.start s) (events.filterMap TypistEvent.toShell) t.main ∧
    Executes (typed t.history.handedOut)
      ((events.filterMap TypistEvent.toShell).filterMap ShellEvent.toStage) t.main.doing ∧
    t.history.handedOut ++ t.machine.keyboard.ring = t.history.accepted ∧
    t.history.arrived.map Prod.fst =
      decoded true false (events.filterMap TypistEvent.toDriver) := by
  have hmain := (typist_projects ok).run h trivial
  have hyielded := run_yielded h
  have hmachine : (t.machine, t.history) =
      Driver.run (.activate :: events.filterMap TypistEvent.toDriver) := run_machine h
  refine ⟨hmain, ?_, ?_, ?_⟩
  · have hstart : Executes ⟨[], []⟩ [] (MainLoop.start s).doing := ⟨rfl, rfl⟩
    have hexec := hstart.run hmain
    rw [History.handedOut, hyielded]
    change Executes (typed (List.filter _ ([] ++ _))) _ _
    rw [List.nil_append, typed_filter]
    exact hexec
  · have hfifo := (run_fifo (.activate :: events.filterMap TypistEvent.toDriver)).order
    rw [← hmachine] at hfifo
    exact hfifo
  · have harrived := arrived_foldl (.activate :: events.filterMap TypistEvent.toDriver) .initial
      ⟨[], [], []⟩
    change (Driver.run _).2.arrived.map Prod.fst = _ at harrived
    rw [← hmachine] at harrived
    exact harrived

/-- One key, read by the statements of `get_keyboard_buffer`. -/
theorem keys_reach_commands_letter :
    ∃ t : Typist, t.main.doing = .reading [0x61] ∧
      Executes (typed t.history.handedOut) [] t.main.doing := by
  have hreads : ∀ t : Typist, t.main = MainLoop.start freshFs →
      Reader.returns t.machine.reader = some 0x61 →
      Typist.Step Sane t (.shell (.key 0x61)) ⟨t.machine.step .statement,
        t.history.step t.machine .statement, readKey (MainLoop.start freshFs).console [] 0x61⟩ :=
    fun _ hmain hreader => .returns hmain hreader
  exact ⟨_, rfl, (keys_reach_commands (.cons (.interrupt 0x1E)
    (.cons (.reads rfl (by decide +kernel)) (.cons (.reads rfl (by decide +kernel))
      (.cons (hreads _ rfl (by decide +kernel)) (.nil (M := typistSystem Sane) _)))))).2.1⟩

end RendangOS.Shell
