import RendangOS.Shell.Find
import RendangOS.Shell.Grep
import RendangOS.Shell.Move
import RendangOS.Shell.Parse
import RendangOS.Shell.WorkingDir

/-!
# The commands of the shell

What `main` does with one stage of a command line: the words are parsed, the
command is found by its name and runs on the statics of the shell, the volume and
the pipes. `cmd_wc` and `cmd_testuser` are called but nowhere defined.
-/

namespace RendangOS.Shell

open Ext2

def cyan : BitVec 8 := 0x0B

/-- The shell, the volume behind its system calls, and its output. -/
structure Console where
  sh : Session
  s : Fs
  st : Pipes

/-! ## Output -/

/-- One call of `puts` after the other. -/
def say (st : Pipes) (lines : List (Text × BitVec 8)) : Pipes :=
  lines.foldl (fun st line => puts st line.1 line.2) st

/-- The digits that the loop of `print_int` leaves in `buf`, the last one first. -/
def digitChars (num : ℕ) : Text :=
  if num = 0 then [] else BitVec.ofNat 8 (0x30 + num % 10) :: digitChars (num / 10)

def printInt (st : Pipes) (num : BitVec 32) (color : BitVec 8) : Pipes :=
  if num = 0 then putchar st 0x30 color
  else (digitChars num.toNat).reverse.foldl (fun st c => putchar st c color) st

/-- The messages of `cmd_cd`. -/
def CdReport.lines (path : Text) : CdReport → List (Text × BitVec 8)
  | .unreadable => [(message "cd: Cannot read directory\n", red)]
  | .notDirectory => [(message "cd: Not a directory: ", red), (path, red), ([newline], white)]
  | .noDirectory => [(message "cd: No such directory: ", red), (path, red), ([newline], white)]
  | .root | .up | .stayed | .entered => []

/-- One entry, as the loop of `cmd_ls` prints it. -/
def lsEntry (st : Pipes) (e : DirEntry) : Pipes :=
  let dir := decide (e.fileType = ext2FtDir)
  let st := e.name.bytes.foldl (fun st c => putchar st c (if dir then cyan else white)) st
  let st := if dir then puts st slash cyan else st
  puts st [space, space] white

def MkdirReport.lines (name : Text) : MkdirReport → List (Text × BitVec 8)
  | .missingOperand => [(message "mkdir: Missing operand\n", red)]
  | .created => [(message "Directory created: ", green), (name, green), ([newline], white)]
  | .alreadyExists => [(message "mkdir: Directory already exists\n", red)]
  | .failed => [(message "mkdir: Failed to create directory\n", red)]

def CpReport.lines (src dst : Text) : CpReport → List (Text × BitVec 8)
  | .missingOperand => [(message "cp: Missing operand\n", red),
      (message "Usage: cp <source> <destination>\n", yellow)]
  | .noSource => [(message "cp: Cannot find source: ", red), (src, red), ([newline], white)]
  | .tooLarge => [(message "cp: File too large\n", red)]
  | .unreadable =>
      [(message "cp: Cannot read source file: ", red), (src, red), ([newline], white)]
  | .copied => [(message "Copied: ", green), (src, green), (message " -> ", white), (dst, green),
      ([newline], white)]
  | .failed => [(message "cp: Failed to copy\n", red)]

/-- Without the code that `.notWritten` prints between its two texts. -/
def MvReport.lines (src dst : Text) (intoDir : Bool) : MvReport → List (Text × BitVec 8)
  | .missingOperand => [(message "mv: Missing operand\n", red),
      (message "Usage: mv <source> <destination>\n", yellow)]
  | .noSource => [(message "mv: Cannot find source: ", red), (src, red), ([newline], white)]
  | .tooLarge => [(message "mv: File too large\n", red)]
  | .unreadable => [(message "mv: Cannot read source: ", red), (src, red), ([newline], white)]
  | .notWritten _ => [(message "mv: Cannot write destination (error ", red)]
  | .moved => [(message "Moved: ", green), (src, green), (message " -> ", white), (dst, green)] ++
      (if intoDir then [(slash, green), (src, green)] else []) ++ [([newline], white)]
  | .overrun => []

/-- What `cmd_mv` prints. -/
def MvReport.print (src dst : Text) (intoDir : Bool) (report : MvReport) (st : Pipes) : Pipes :=
  let st := say st (report.lines src dst intoDir)
  match report with
  | .notWritten ret => puts (printInt st (BitVec.ofInt 32 ret) red) (message ")\n") red
  | _ => st

/-- A line of `cmd_find`. -/
def Found.lines (f : Found) : List (Text × BitVec 8) :=
  [(message "  Found: ", green), (f.fullPath, yellow)] ++
    (if f.entry.fileType = ext2FtDir then [(slash, cyan)] else []) ++ [([newline], white)]

/-- What `cmd_find` prints when it is through. -/
def findPrint (searchName : Text) (found : List Found) (st : Pipes) : Pipes :=
  let st := say st [(message "Searching for '", white), (searchName, yellow),
    (message "' in entire filesystem...\n", white)]
  let st := say st (found.reverse.flatMap Found.lines)
  if found = [] then puts st (message "No matches found.\n") yellow
  else
    let st := puts st (message "Found ") green
    puts (printInt st (BitVec.ofNat 32 found.length) green) (message " match(es).\n") green

/-! ## `cmd_rm`, `cmd_echo` and `cmd_help` -/

/-- The message of `cmd_rm`. -/
inductive RmReport where
  /-- `"rm: Missing operand"` -/
  | missingOperand
  /-- `"Removed: "` -/
  | removed
  /-- `"rm: No such file or directory: "` -/
  | notFound
  /-- `"rm: Directory not empty"` -/
  | notEmpty
  /-- `"rm: Failed to remove"` -/
  | failed
deriving DecidableEq

def RmReport.lines (name : Text) : RmReport → List (Text × BitVec 8)
  | .missingOperand => [(message "rm: Missing operand\n", red)]
  | .removed => [(message "Removed: ", green), (name, green), ([newline], white)]
  | .notFound =>
      [(message "rm: No such file or directory: ", red), (name, red), ([newline], white)]
  | .notEmpty => [(message "rm: Directory not empty\n", red)]
  | .failed => [(message "rm: Failed to remove\n", red)]

/-- The request of `cmd_rm`, as for a file, or for a directory. -/
def rmRequest (name : EntryName) (parentInode : BitVec 32) (isDirectory : Bool) : Request :=
  { fileRequest (fun _ => 0) name parentInode 0 with is_directory := isDirectory }

def cmdRm (env : Env) (sh : Statics) (s : Fs) (name : EntryName) : RmReport × Fs :=
  if name.len = 0 then (.missingOperand, s)
  else
    let ret := delete env s (rmRequest name sh.current_dir_inode false)
    let ret :=
      if ret.1 = 1 then delete env ret.2 (rmRequest name sh.current_dir_inode true) else ret
    (if ret.1 = 0 then .removed else if ret.1 = 1 then .notFound
      else if ret.1 = 2 then .notEmpty else .failed, ret.2)

/-- The message of `cmd_echo`. -/
inductive EchoReport where
  /-- `"echo: Missing text"` -/
  | missingText
  /-- The text itself, without a file name. -/
  | shown
  /-- `"Created: "` -/
  | created
  /-- `"echo: File already exists"` -/
  | alreadyExists
  /-- `"echo: Failed to create file"` -/
  | failed
deriving DecidableEq

def EchoReport.lines (text filename : Text) : EchoReport → List (Text × BitVec 8)
  | .missingText => [(message "echo: Missing text\n", red),
      (message "Usage: echo <text> <filename>\n", yellow)]
  | .shown => [(text, white), ([newline], white)]
  | .created => [(message "Created: ", green), (filename, green), ([newline], white)]
  | .alreadyExists => [(message "echo: File already exists\n", red)]
  | .failed => [(message "echo: Failed to create file\n", red)]

/-- `file_buffer` with the text and a newline at its start. -/
def echoBuffer (text : Text) (buf : ℕ → BitVec 8) : ℕ → BitVec 8 := fun k =>
  (text ++ [newline])[k]?.getD (buf k)

def cmdEcho (env : Env) (sh : Statics) (s : Fs) (text : Text) (filename : EntryName) :
    EchoReport × Statics × Fs :=
  if text = [] then (.missingText, sh, s)
  else if filename.len = 0 then (.shown, sh, s)
  else
    let sh := { sh with file_buffer := echoBuffer text sh.file_buffer }
    let ret := write env s (fileRequest sh.file_buffer filename sh.current_dir_inode
      (BitVec.ofNat 32 (text.length + 1)))
    (if ret.1 = 0 then .created else if ret.1 = 1 then .alreadyExists else .failed, sh, ret.2)

def helpLines : List (Text × BitVec 8) :=
  [(message "RendangOS Shell Commands:\n", cyan),
    (message "  cd <dir>        - Change directory\n", white),
    (message "  ls              - List directory contents\n", white),
    (message "  mkdir <name>    - Create directory\n", white),
    (message "  cat <file>      - Display file contents\n", white),
    (message "  cp <src> <dst>  - Copy file\n", white),
    (message "  rm <name>       - Remove file/directory\n", white),
    (message "  mv <src> <dst>  - Move/rename file\n", white),
    (message "  echo <txt> <f>  - Create file with text\n", white),
    (message "  find <name>     - Search filesystem (DFS graph)\n", white),
    (message "  grep <p> [file] - Search pattern in file/pipe\n", white),
    (message "  clear           - Clear screen\n", white),
    (message "  exit/quit       - Exit shell\n", white),
    (message "  help            - Show this help\n", white)]

def quitLines : List (Text × BitVec 8) :=
  [([newline], white), (message "Goodbye! Halting system...\n", cyan),
    (message "You can safely close QEMU now.\n", yellow), ([newline], white)]

/-! ## One command -/

/-- A command with its operands. -/
inductive ShellCommand where
  | cd (path : EntryName)
  | ls
  | mkdir (name : EntryName)
  | cat (filename : EntryName)
  | cp (src dst : EntryName)
  | rm (name : EntryName)
  | mv (src dst : EntryName)
  | find (searchName : EntryName)
  | grep (pattern : Text) (filename : EntryName)
  | wc (filename : EntryName)
  | echo (text : Text) (filename : EntryName)
  | clear
  | help
  | quit
  | testuser
  | pwd
  | unknown (cmd : Text)
  | nothing
deriving DecidableEq

/-- A word as the name in a request: `strlen` of it goes into a `uint8_t`. -/
def operand (word : Text) : EntryName where
  bytes := word.take (word.length % 256)
  bound := (List.length_take_le _ _).trans (Nat.le_of_lt_succ (Nat.mod_lt _ (by decide)))

/-- The comparisons of `main` with the names of the commands. -/
def ShellCommand.parse (cmd arg1 arg2 : Text) : ShellCommand :=
  if cmd = message "cd" then .cd (operand arg1)
  else if cmd = message "ls" then .ls
  else if cmd = message "mkdir" then .mkdir (operand arg1)
  else if cmd = message "cat" then .cat (operand arg1)
  else if cmd = message "cp" then .cp (operand arg1) (operand arg2)
  else if cmd = message "rm" then .rm (operand arg1)
  else if cmd = message "mv" then .mv (operand arg1) (operand arg2)
  else if cmd = message "find" then .find (operand arg1)
  else if cmd = message "grep" then .grep arg1 (operand arg2)
  else if cmd = message "wc" then .wc (operand arg1)
  else if cmd = message "echo" then .echo arg1 (operand arg2)
  else if cmd = message "clear" then .clear
  else if cmd = message "help" then .help
  else if cmd = message "quit" ∨ cmd = message "exit" then .quit
  else if cmd = message "testuser" then .testuser
  else if cmd = message "pwd" then .pwd
  else if cmd ≠ [] then .unknown cmd
  else .nothing

/-- What becomes of a command. -/
inductive Outcome where
  | next (w : Console)
  /-- In the loop at the end of `cmd_quit`. -/
  | halted (w : Console)
  /-- `cmd_find` has not come to an end. -/
  | running
  /-- A write behind the end of an array, or a function that is not defined. -/
  | undefined

namespace Console

/-- The two statics that most commands use. -/
def setStatics (w : Console) (sh : Statics) : Console :=
  { w with sh := { w.sh with toStatics := sh } }

def say (w : Console) (lines : List (Text × BitVec 8)) : Console :=
  { w with st := Shell.say w.st lines }

def cd (env : Env) (w : Console) (path : EntryName) : Console :=
  let ret := cmdCd env w.sh w.s path
  { w with sh := ret.2 }.say (ret.1.lines path.bytes)

def ls (env : Env) (w : Console) : Console :=
  let ret := cmdLs env w.sh.toStatics w.s
  match ret.1 with
  | .unreadable => (w.setStatics ret.2).say [(message "ls: Cannot read directory\n", red)]
  | .listed _ =>
      { w.setStatics ret.2 with
        st := puts ((listedFrom ret.2.dir_buffer 0).foldl lsEntry w.st) [newline] white }

def mkdir (env : Env) (w : Console) (name : EntryName) : Console :=
  let ret := cmdMkdir env w.sh w.s name
  { w with s := ret.2 }.say (ret.1.lines name.bytes)

def cat (env : Env) (w : Console) (filename : EntryName) : Console :=
  let ret := cmdCat env w.s w.sh.toStatics w.st filename
  { w.setStatics ret.1 with st := ret.2 }

def cp (env : Env) (w : Console) (src dst : EntryName) : Console :=
  let ret := cmdCp env w.sh.toStatics w.s src dst
  { w.setStatics ret.2.1 with s := ret.2.2 }.say (ret.1.lines src.bytes dst.bytes)

def rm (env : Env) (w : Console) (name : EntryName) : Console :=
  let ret := cmdRm env w.sh.toStatics w.s name
  { w with s := ret.2 }.say (ret.1.lines name.bytes)

def mv (env : Env) (w : Console) (src dst : EntryName) : Outcome :=
  let ret := cmdMv env w.sh.toStatics w.s src dst
  let intoDir := decide ((isDirectory env w.sh.toStatics w.s dst).1 ≠ 0)
  if ret.1 = .overrun then .undefined
  else
    .next { w.setStatics ret.2.1 with
      s := ret.2.2
      st := ret.1.print src.bytes dst.bytes intoDir w.st }

def find (env : Env) (turns : ℕ) (w : Console) (searchName : EntryName) : Outcome :=
  if searchName.len = 0 then
    .next (w.say [(message "find: Missing search term\n", red),
      (message "Usage: find <filename>\n", yellow)])
  else
    match cmdFind env w.sh.toStatics w.s searchName turns with
    | .running _ => .running
    | .overrun => .undefined
    | .done st =>
        .next { w.setStatics { w.sh.toStatics with dir_buffer := st.dir_buffer } with
          st := findPrint searchName.bytes st.found w.st }

def grep (env : Env) (w : Console) (pattern : Text) (filename : EntryName) : Console :=
  let ret := cmdGrep env w.s w.sh.toStatics w.st pattern filename
  { w.setStatics ret.1 with st := ret.2 }

def echo (env : Env) (w : Console) (text : Text) (filename : EntryName) : Console :=
  let ret := cmdEcho env w.sh.toStatics w.s text filename
  { w.setStatics ret.2.1 with s := ret.2.2 }.say (ret.1.lines text filename.bytes)

def clear (w : Console) : Console := w.say (List.replicate 25 ([newline], white))

def unknown (w : Console) (cmd : Text) : Console :=
  w.say [(message "Unknown command: ", red), (cmd, red), ([newline], white),
    (message "Type 'help' for available commands.\n", yellow)]

end Console

/-- The command on the console. `turns` bounds the search of `cmd_find`. -/
def ShellCommand.run (env : Env) (turns : ℕ) (w : Console) : ShellCommand → Outcome
  | .cd path => .next (w.cd env path)
  | .ls => .next (w.ls env)
  | .mkdir name => .next (w.mkdir env name)
  | .cat filename => .next (w.cat env filename)
  | .cp src dst => .next (w.cp env src dst)
  | .rm name => .next (w.rm env name)
  | .mv src dst => w.mv env src dst
  | .find searchName => w.find env turns searchName
  | .grep pattern filename => .next (w.grep env pattern filename)
  | .wc _ => .undefined
  | .echo text filename => .next (w.echo env text filename)
  | .clear => .next w.clear
  | .help => .next (w.say helpLines)
  | .quit => .halted (w.say quitLines)
  | .testuser => .undefined
  | .pwd => .next (w.say [(w.sh.cwd, yellow), ([newline], white)])
  | .unknown cmd => .next (w.unknown cmd)
  | .nothing => .next w

/-! ## `main` -/

/-- The command and its two arguments, parsed into buffers that are cleared; none
where `parse_input` writes behind one of them. -/
def parsed (stage : Text) : Option (Text × Text × Text) :=
  let bufs := parseInput stage ⟨fun _ => 0, []⟩ ⟨fun _ => 0, []⟩ ⟨fun _ => 0, []⟩
  if (∀ j ∈ bufs.1.writes, j < cmdSize) ∧ (∀ j ∈ bufs.2.1.writes, j < argSize) ∧
      ∀ j ∈ bufs.2.2.writes, j < argSize then
    some (cString ((List.range cmdSize).map bufs.1.cell),
      cString ((List.range argSize).map bufs.2.1.cell),
      cString ((List.range argSize).map bufs.2.2.cell))
  else none

/-- The pipes for stage `idx` of `count`. -/
def setModes (st : Pipes) (count idx : ℕ) : Pipes :=
  if count > 1 then
    let st := pipeSetOutputMode st (decide (idx < count - 1))
    if idx > 0 then pipeSetInputMode st true else st
  else st

/-- One turn of the loop over the stages of a line. -/
def stageTurn (env : Env) (turns count idx : ℕ) (stage : Text) (w : Console) : Outcome :=
  match parsed stage with
  | none => .undefined
  | some (cmd, arg1, arg2) =>
      let outcome := (ShellCommand.parse cmd arg1 arg2).run env turns
        { w with st := setModes w.st count idx }
      match outcome with
      | .next w =>
          .next (if idx < count - 1 then { w with st := pipeTransferOutputToInput w.st } else w)
      | _ => outcome

end RendangOS.Shell
