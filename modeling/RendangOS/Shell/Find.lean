import RendangOS.Shell.DirBuffer
import RendangOS.Shell.Text
import RendangOS.Ext2.EntryKind
import RendangOS.Lib.TreeSearch
import Mathlib.Order.Interval.Finset.Nat

/-!
# `find`

`cmd_find` searches the tree from the root with a stack of 32 directories. It is a
search of the whole tree as long as no name fills `name_buf`, every directory shows
all of itself in `dir_buffer` and nothing else, and the stack does not fill.
-/

namespace RendangOS.Shell

open Ext2 Image RecordChain Assoc TreeSearch

/-! ## `cmd_find` -/

/-- `FIND_MAX_DEPTH`. -/
@[simp] def findMaxDepth : ℕ := 32

/-- `"(path too long)"`. -/
def pathTooLong : Text :=
  [0x28, 0x70, 0x61, 0x74, 0x68, 0x20, 0x74, 0x6F, 0x6F, 0x20, 0x6C, 0x6F, 0x6E, 0x67, 0x29]

/-- A `"Found: "` line, with the directory and the entry it is printed for. -/
structure Found where
  dir : ℕ
  entry : DirEntry
  fullPath : Text

/-- `find_stack` with `find_paths`, the top first, `dir_buffer`, and the lines printed
so far, the last first. -/
structure FindState where
  stack : List (ℕ × Text)
  dir_buffer : Memory
  found : List Found

def findPush (inode : ℕ) (path : Text) (st : FindState) : FindState :=
  if st.stack.length < findMaxDepth then
    { st with stack := (inode, path.take 255) :: st.stack }
  else st

/-- `name_buf` as a string. A name of 64 bytes leaves no room for the terminator, and
a longer one is copied over the end. -/
def nameBuf (name : EntryName) : Option Text :=
  if name.len < 64 then some (cString name.bytes) else none

/-- `full_path`. -/
def fullPath (currentPath name : Text) : Text :=
  if currentPath.length < 256 - 64 then
    let path := if currentPath.getLast? = some 0x2F then currentPath else currentPath ++ slash
    path ++ name.take (255 - path.length)
  else pathTooLong

/-- The loop over the entries in `dir_buffer`; `none` when a name runs over `name_buf`. -/
def findEntries (searchName : Text) (dir : ℕ) (currentPath : Text) :
    List DirEntry → FindState → Option FindState
  | [], st => some st
  | e :: es, st =>
      match nameBuf e.name with
      | none => none
      | some name =>
          if name = EntryName.dot.bytes ∨ name = EntryName.dotdot.bytes then
            findEntries searchName dir currentPath es st
          else
            let path := fullPath currentPath name
            let st := if name = searchName then { st with found := ⟨dir, e, path⟩ :: st.found }
              else st
            let st := if e.fileType = ext2FtDir then findPush e.inode path st else st
            findEntries searchName dir currentPath es st

/-- One turn of the loop that takes a directory from the stack. -/
def findTurn (env : Env) (s : Fs) (searchName : Text) (inode : ℕ) (currentPath : Text)
    (st : FindState) : Option FindState :=
  let ret := readDirectory env s (dirRequest st.dir_buffer (BitVec.ofNat 32 inode))
  let st := { st with dir_buffer := ret.2 }
  if ret.1 ≠ 0 then some st
  else findEntries searchName inode currentPath (entriesFrom st.dir_buffer 0) st

/-- How far the loop comes in a number of turns. -/
inductive FindOutcome where
  | running (st : FindState)
  | overrun
  | done (st : FindState)

def findLoop (env : Env) (s : Fs) (searchName : Text) : ℕ → FindState → FindOutcome
  | 0, st => .running st
  | turns + 1, st =>
      match st.stack with
      | [] => .done st
      | (inode, path) :: rest =>
          match findTurn env s searchName inode path { st with stack := rest } with
          | none => .overrun
          | some st => findLoop env s searchName turns st

/-- The search before its first turn: the root is on the stack. -/
def findStart (sh : Statics) : FindState :=
  findPush rootInodeNo slash { stack := [], dir_buffer := sh.dir_buffer, found := [] }

/-- `cmd_find` after a number of turns, and whether it ends. -/
def cmdFind (env : Env) (sh : Statics) (s : Fs) (searchName : EntryName) (turns : ℕ) :
    FindOutcome :=
  if searchName.len = 0 then .done { stack := [], dir_buffer := sh.dir_buffer, found := [] }
  else findLoop env s searchName.bytes turns (findStart sh)

/-! ## What `find` should do -/

/-- A line for entry `e` of directory `d`. -/
def Found.at (f : Found) : ℕ × DirEntry := (f.dir, f.entry)

/-- Entry `e` of directory `d` is in the tree and has the name. -/
def Matches (s : Fs) (searchName : EntryName) (i : ℕ × DirEntry) : Prop :=
  FromRoot s i.1 ∧ Names s i.1 i.2 ∧ i.2.name = searchName

/-- `find_stack`, `find_paths` and `full_path` hold what is in them. -/
structure FindState.Fits (st : FindState) : Prop where
  depth : st.stack.length ≤ findMaxDepth
  paths : ∀ x ∈ st.stack, x.2.length < 256
  lines : ∀ f ∈ st.found, f.fullPath.length < 256

/-- `cmd_find` comes to its end inside its buffers, and has printed a line for every
entry of that name, and for nothing else. -/
def FindExact (env : Env) (sh : Statics) (s : Fs) (searchName : EntryName) : Prop :=
  (∀ turns, cmdFind env sh s searchName turns ≠ .overrun) ∧
  (∀ turns st, cmdFind env sh s searchName turns = .running st → st.Fits) ∧
  ∃ turns st, cmdFind env sh s searchName turns = .done st ∧ st.Fits ∧
    (st.found.map Found.at).Nodup ∧
    ∀ i, i ∈ st.found.map Found.at ↔ Matches s searchName i

/-! ## When it does -/

/-- The directories entered in directory `p`. -/
def subdirs (s : Fs) (p : ℕ) : List ℕ :=
  (((view s).dirEntries p).filter fun e =>
    decide (e.name.Proper ∧ e.fileType = ext2FtDir)).map DirEntry.inode

/-- A search of the tree with an unbounded stack: the stack and the content of
`dir_buffer` before a directory is read. -/
inductive Visits (s : Fs) (mem₀ : Memory) : List ℕ → Memory → Prop
  | start : Visits s mem₀ [rootInodeNo] mem₀
  | turn {p : ℕ} {rest : List ℕ} {mem : Memory} : Visits s mem₀ (p :: rest) mem →
      Visits s mem₀ (push (subdirs s p) rest) (overlay s p mem)

/-- `name_buf` is `"."` or `".."`. -/
def IsDots (name : Text) : Prop := name = EntryName.dot.bytes ∨ name = EntryName.dotdot.bytes

instance : DecidablePred IsDots := fun name => by
  unfold IsDots
  infer_instance

/-- Directory `p` is searched as it should be, with `rest` on the stack and `mem`
in `dir_buffer` before it is read. -/
structure TurnSafe (s : Fs) (searchName : EntryName) (p : ℕ) (rest : List ℕ) (mem : Memory) :
    Prop where
  /-- The stack has room for all directories in it. -/
  room : rest.length + (subdirs s p).length ≤ findMaxDepth
  /-- Its names fit into `name_buf`, -/
  short : ∀ e ∈ shownEntries s p, e.name.len < 64
  /-- and are not taken for others in front of a zero byte. -/
  plain : ∀ e ∈ shownEntries s p, e.name.Proper → ¬ IsDots (cString e.name.bytes) ∧
    (cString e.name.bytes = searchName.bytes → e.name = searchName)
  /-- Nothing that matters lies behind its eighth block. -/
  whole : ∀ e ∈ hiddenEntries s p, e.name.Proper →
    e.name ≠ searchName ∧ e.fileType ≠ ext2FtDir
  /-- Nothing that matters is left in the buffer behind its blocks. -/
  clean : ∀ e ∈ staleEntries s p mem, e.name.len < 64 ∧
    (IsDots (cString e.name.bytes) ∨
      cString e.name.bytes ≠ searchName.bytes ∧ e.fileType ≠ ext2FtDir)

/-- Every directory of the search is. -/
def FindSafe (sh : Statics) (s : Fs) (searchName : EntryName) : Prop :=
  ∀ p rest mem, Visits s sh.dir_buffer (p :: rest) mem → TurnSafe s searchName p rest mem

variable {env : Env} {sh : Statics} {s : Fs} {searchName : EntryName} {p d : ℕ} {rest : List ℕ}
  {mem : Memory} {st : FindState} {e : DirEntry} {held : Set ℕ}

/-! ## One directory -/

/-- The entry goes onto the stack. -/
def opens (e : DirEntry) : Bool := !decide (IsDots (cString e.name.bytes)) &&
  decide (e.fileType = ext2FtDir)

/-- A line is printed for the entry. -/
def hits (searchName : Text) (e : DirEntry) : Bool :=
  !decide (IsDots (cString e.name.bytes)) && decide (cString e.name.bytes = searchName)

theorem opens_iff :
    opens e = true ↔ ¬ IsDots (cString e.name.bytes) ∧ e.fileType = ext2FtDir := by
  unfold opens
  rw [Bool.and_eq_true, Bool.not_eq_true', decide_eq_false_iff_not, decide_eq_true_iff]

theorem hits_iff {search : Text} :
    hits search e = true ↔ ¬ IsDots (cString e.name.bytes) ∧ cString e.name.bytes = search := by
  unfold hits
  rw [Bool.and_eq_true, Bool.not_eq_true', decide_eq_false_iff_not, decide_eq_true_iff]

theorem findPush_room {inode : ℕ} {path : Text} (h : st.stack.length < findMaxDepth) :
    findPush inode path st = { st with stack := (inode, path.take 255) :: st.stack } := if_pos h

/-- The loop over the entries, while names are short and there is room. -/
theorem findEntries_spec (search : Text) (dir : ℕ) (path : Text) {es : List DirEntry}
    (hshort : ∀ e ∈ es, e.name.len < 64) :
    ∀ {st : FindState}, st.stack.length + (es.filter opens).length ≤ findMaxDepth →
    ∃ st', findEntries search dir path es st = some st' ∧ st'.dir_buffer = st.dir_buffer ∧
      st'.stack.map Prod.fst =
        push ((es.filter opens).map DirEntry.inode) (st.stack.map Prod.fst) ∧
      st'.found.map Found.at =
        push ((es.filter (hits search)).map (Prod.mk dir)) (st.found.map Found.at) := by
  induction es with
  | nil => exact fun _ => ⟨_, rfl, rfl, rfl, rfl⟩
  | cons e es ih =>
      intro st hroom
      have ih := @ih fun e' he' => hshort e' (List.mem_cons_of_mem _ he')
      have hname : nameBuf e.name = some (cString e.name.bytes) :=
        if_pos (hshort e List.mem_cons_self)
      rw [findEntries, hname]
      dsimp only
      by_cases hdots : IsDots (cString e.name.bytes)
      · have hno : ¬ opens e = true := fun h => (opens_iff.mp h).1 hdots
        have hnone : ¬ hits search e = true := fun h => (hits_iff.mp h).1 hdots
        rw [List.filter_cons_of_neg hno] at hroom ⊢
        rw [List.filter_cons_of_neg hnone]
        rw [if_pos (show _ ∨ _ from hdots)]
        exact ih hroom
      · -- first the line, then the stack
        rw [if_neg (show ¬ (_ ∨ _) from hdots)]
        let path' := fullPath path (cString e.name.bytes)
        let st₁ : FindState := if cString e.name.bytes = search then
          { st with found := ⟨dir, e, path'⟩ :: st.found } else st
        have hstack₁ : st₁.stack = st.stack := by
          simp only [st₁]
          split <;> rfl
        have hbuf₁ : st₁.dir_buffer = st.dir_buffer := by
          simp only [st₁]
          split <;> rfl
        have hfound₁ : push ((es.filter (hits search)).map (Prod.mk dir))
            (st₁.found.map Found.at) =
            push (((e :: es).filter (hits search)).map (Prod.mk dir)) (st.found.map Found.at) := by
          by_cases heq : cString e.name.bytes = search
          · have hhit : hits search e = true := hits_iff.mpr ⟨hdots, heq⟩
            rw [List.filter_cons_of_pos hhit, List.map_cons, push_cons]
            simp only [st₁, if_pos heq]
            rfl
          · have hmiss : ¬ hits search e = true := fun h => heq (hits_iff.mp h).2
            rw [List.filter_cons_of_neg hmiss]
            simp only [st₁, if_neg heq]
        change ∃ st', findEntries search dir path es
          (if e.fileType = ext2FtDir then findPush e.inode path' st₁ else st₁) = some st' ∧ _
        rw [← hfound₁, ← hbuf₁, ← hstack₁]
        rw [← hstack₁] at hroom
        by_cases hdir : e.fileType = ext2FtDir
        · have hopen : opens e = true := opens_iff.mpr ⟨hdots, hdir⟩
          rw [List.filter_cons_of_pos hopen] at hroom ⊢
          rw [List.length_cons] at hroom
          rw [if_pos hdir, findPush_room (by omega)]
          rw [List.map_cons, push_cons]
          exact ih (by rw [List.length_cons]; omega)
        · have hskip : ¬ opens e = true := fun h => hdir (opens_iff.mp h).2
          rw [List.filter_cons_of_neg hskip] at hroom ⊢
          rw [if_neg hdir]
          exact ih hroom

/-! ## The bounds of the buffers -/

theorem fullPath_length (path name : Text) : (fullPath path name).length < 256 := by
  unfold fullPath
  split
  · rename_i hlen
    simp only [List.length_append, List.length_take]
    have hpath : (if path.getLast? = some 0x2F then path else path ++ slash).length < 193 := by
      split
      · omega
      · rw [List.length_append]
        change path.length + 1 < 193
        omega
    omega
  · decide

theorem FindState.Fits.push {inode : ℕ} {path : Text} (h : st.Fits) :
    (findPush inode path st).Fits := by
  unfold findPush
  split
  · rename_i hroom
    refine ⟨hroom, ?_, h.lines⟩
    intro x hx
    rcases List.mem_cons.mp hx with rfl | hold
    · change (path.take 255).length < 256
      rw [List.length_take]
      omega
    · exact h.paths x hold
  · exact h

theorem findEntries_fits {search path : Text} {dir : ℕ} {es : List DirEntry} :
    ∀ {st st' : FindState}, st.Fits → findEntries search dir path es st = some st' →
      st'.Fits := by
  induction es with
  | nil =>
      intro st st' h hres
      cases hres
      exact h
  | cons e es ih =>
      intro st st' h hres
      rw [findEntries] at hres
      cases hname : nameBuf e.name with
      | none =>
          rw [hname] at hres
          cases hres
      | some name =>
          rw [hname] at hres
          dsimp only at hres
          split at hres
          · exact ih h hres
          · have hline : (if name = search then
                { st with found := ⟨dir, e, fullPath path name⟩ :: st.found } else st).Fits := by
              split
              · refine ⟨h.depth, h.paths, ?_⟩
                intro f hf
                rcases List.mem_cons.mp hf with rfl | hold
                · exact fullPath_length path name
                · exact h.lines f hold
              · exact h
            refine ih ?_ hres
            split
            · exact hline.push
            · exact hline

theorem findTurn_fits {search path : Text} {inode : ℕ} {st' : FindState} (h : st.Fits)
    (hres : findTurn env s search inode path st = some st') : st'.Fits := by
  have hread : ∀ mem, ({ st with dir_buffer := mem } : FindState).Fits := fun _ =>
    ⟨h.depth, h.paths, h.lines⟩
  unfold findTurn at hres
  dsimp only at hres
  split at hres
  · cases hres
    exact hread _
  · exact findEntries_fits (hread _) hres

/-- In every search the stack, the paths and the lines stay in their bounds. -/
theorem findLoop_fits {search : Text} {turns : ℕ} : ∀ {st : FindState}, st.Fits →
    ∀ st', findLoop env s search turns st = .running st' ∨
      findLoop env s search turns st = .done st' → st'.Fits := by
  induction turns with
  | zero =>
      rintro st h st' (hres | hres) <;> cases hres
      exact h
  | succ turns ih =>
      intro st h st' hres
      rw [findLoop] at hres
      cases hst : st.stack with
      | nil =>
          rw [hst] at hres
          rcases hres with hres | hres <;> cases hres
          exact h
      | cons x rest =>
          rw [hst] at hres
          dsimp only at hres
          have hrest : ({ st with stack := rest } : FindState).Fits := by
            have hdepth := h.depth
            have hpaths := h.paths
            rw [hst] at hdepth hpaths
            exact ⟨(Nat.le_succ _).trans hdepth, fun y hy => hpaths y (List.mem_cons_of_mem _ hy),
              h.lines⟩
          cases hturn : findTurn env s search x.1 x.2 { st with stack := rest } with
          | none =>
              rw [hturn] at hres
              rcases hres with hres | hres <;> cases hres
          | some st₁ =>
              rw [hturn] at hres
              exact ih (findTurn_fits hrest hturn) st' hres

/-! ## One turn -/

/-- The entries of directory `p` that are to be printed. -/
def matchesIn (s : Fs) (searchName : EntryName) (p : ℕ) : List DirEntry :=
  ((view s).dirEntries p).filter fun e => decide (e.name.Proper ∧ e.name = searchName)

theorem mem_subdirs {m : ℕ} : m ∈ subdirs s p ↔ ∃ e ∈ (view s).dirEntries p,
    e.name.Proper ∧ e.fileType = ext2FtDir ∧ e.inode = m := by
  unfold subdirs
  simp only [List.mem_map, List.mem_filter, decide_eq_true_iff]
  tauto

theorem mem_matchesIn : e ∈ matchesIn s searchName p ↔
    e ∈ (view s).dirEntries p ∧ e.name.Proper ∧ e.name = searchName := by
  unfold matchesIn
  rw [List.mem_filter, decide_eq_true_iff]

theorem isDots_of_not_proper (h : ¬ e.name.Proper) : IsDots (cString e.name.bytes) := by
  rcases EntryName.not_proper.mp h with hname | hname <;> rw [hname]
  · exact Or.inl rfl
  · exact Or.inr rfl

theorem TurnSafe.opens_iff (h : TurnSafe s searchName p rest mem) (he : e ∈ shownEntries s p) :
    opens e = true ↔ e.name.Proper ∧ e.fileType = ext2FtDir := by
  rw [Shell.opens_iff]
  refine and_congr_left fun _ => ⟨fun hdots => ?_, fun hproper => (h.plain e he hproper).1⟩
  by_contra hproper
  exact hdots (isDots_of_not_proper hproper)

theorem TurnSafe.hits_iff (h : TurnSafe s searchName p rest mem) (he : e ∈ shownEntries s p)
    (hsearch : cString searchName.bytes = searchName.bytes) :
    hits searchName.bytes e = true ↔ e.name.Proper ∧ e.name = searchName := by
  rw [Shell.hits_iff]
  constructor
  · rintro ⟨hdots, heq⟩
    have hproper : e.name.Proper := by
      by_contra hproper
      exact hdots (isDots_of_not_proper hproper)
    exact ⟨hproper, (h.plain e he hproper).2 heq⟩
  · rintro ⟨hproper, heq⟩
    refine ⟨(h.plain e he hproper).1, ?_⟩
    rw [heq, hsearch]

/-- What goes onto the stack in a safe turn. -/
theorem TurnSafe.opened (h : TurnSafe s searchName p rest mem) :
    ((shownEntries s p ++ staleEntries s p mem).filter opens).map DirEntry.inode =
      subdirs s p := by
  have hstale : (staleEntries s p mem).filter opens = [] := by
    rw [List.filter_eq_nil_iff]
    intro e he hopen
    obtain ⟨hdots, hdir⟩ := Shell.opens_iff.mp hopen
    rcases (h.clean e he).2 with hno | ⟨-, hno⟩
    · exact hdots hno
    · exact hno hdir
  have hhidden : (hiddenEntries s p).filter
      (fun e => decide (e.name.Proper ∧ e.fileType = ext2FtDir)) = [] := by
    rw [List.filter_eq_nil_iff]
    intro e he hopen
    obtain ⟨hproper, hdir⟩ := of_decide_eq_true hopen
    exact (h.whole e he hproper).2 hdir
  have hshown : (shownEntries s p).filter opens = (shownEntries s p).filter
      (fun e => decide (e.name.Proper ∧ e.fileType = ext2FtDir)) := by
    apply List.filter_congr
    intro e he
    rw [Bool.eq_iff_iff, h.opens_iff he, decide_eq_true_iff]
  rw [subdirs, ← shown_hidden, List.filter_append, List.filter_append, hstale, hhidden, hshown]

/-- What is printed in a safe turn. -/
theorem TurnSafe.printed (h : TurnSafe s searchName p rest mem)
    (hsearch : cString searchName.bytes = searchName.bytes) :
    (shownEntries s p ++ staleEntries s p mem).filter (hits searchName.bytes) =
      matchesIn s searchName p := by
  have hstale : (staleEntries s p mem).filter (hits searchName.bytes) = [] := by
    rw [List.filter_eq_nil_iff]
    intro e he hhit
    obtain ⟨hdots, heq⟩ := Shell.hits_iff.mp hhit
    rcases (h.clean e he).2 with hno | ⟨hno, -⟩
    · exact hdots hno
    · exact hno heq
  have hhidden : (hiddenEntries s p).filter
      (fun e => decide (e.name.Proper ∧ e.name = searchName)) = [] := by
    rw [List.filter_eq_nil_iff]
    intro e he hhit
    obtain ⟨hproper, heq⟩ := of_decide_eq_true hhit
    exact (h.whole e he hproper).1 heq
  have hshown : (shownEntries s p).filter (hits searchName.bytes) = (shownEntries s p).filter
      (fun e => decide (e.name.Proper ∧ e.name = searchName)) := by
    apply List.filter_congr
    intro e he
    rw [Bool.eq_iff_iff, h.hits_iff he hsearch, decide_eq_true_iff]
  rw [matchesIn, ← shown_hidden, List.filter_append, List.filter_append, hstale, hhidden, hshown]

/-- A safe turn finds what is to be found in the directory. -/
theorem TurnSafe.turn (h : TurnSafe s searchName p rest mem) (hs : Settled (view s))
    (hd : ((view s).inode p).isDir = true) (env : Env) (path : Text)
    (hsearch : cString searchName.bytes = searchName.bytes)
    (hstack : st.stack.map Prod.fst = rest) (hbuf : st.dir_buffer = mem) :
    ∃ st', findTurn env s searchName.bytes p path st = some st' ∧
      st'.dir_buffer = overlay s p mem ∧
      st'.stack.map Prod.fst = push (subdirs s p) rest ∧
      st'.found.map Found.at =
        push ((matchesIn s searchName p).map (Prod.mk p)) (st.found.map Found.at) := by
  have hslot := isSlot_of_isDir hd
  have hp : (BitVec.ofNat 32 p).toNat = p := hslot.word
  have hshort : ∀ e ∈ shownEntries s p ++ staleEntries s p mem, e.name.len < 64 := by
    intro e he
    rcases List.mem_append.mp he with hshown | hstale
    · exact h.short e hshown
    · exact (h.clean e hstale).1
  have hroom : st.stack.length +
      ((shownEntries s p ++ staleEntries s p mem).filter opens).length ≤ findMaxDepth := by
    have hroom := h.room
    rwa [← h.opened, ← hstack, List.length_map, List.length_map] at hroom
  obtain ⟨st', hres, hbuf', hstack', hfound'⟩ := findEntries_spec searchName.bytes p path hshort
    (show ({ st with dir_buffer := overlay s p mem } : FindState).stack.length + _ ≤ _ from hroom)
  refine ⟨st', ?_, hbuf', ?_, ?_⟩
  · unfold findTurn
    rw [hbuf, readDirectory_dir hs hd env mem hp]
    dsimp only
    rw [if_neg (by decide), entriesFrom_overlay hs hd mem]
    exact hres
  · rw [hstack', h.opened, hstack]
  · rw [hfound', h.printed hsearch]

/-! ## The tree of directories -/

/-- What is below the root in the sense of the search. -/
theorem below_iff (ht : Tree held (view s)) (hk : EntryKinds (view s)) :
    Below (subdirs s) rootInodeNo p ↔ FromRoot s p ∧ ((view s).inode p).isDir = true := by
  constructor
  · intro h
    induction h with
    | refl => exact ⟨.refl, ht.root⟩
    | tail _ hlast ih =>
        obtain ⟨e, he, hproper, hdir, rfl⟩ := mem_subdirs.mp hlast
        obtain ⟨hpath, hd⟩ := ih
        have hn : Names s _ e := ⟨ht.allocated_of_path hpath hd, he, hproper⟩
        exact ⟨hpath.tail ⟨e, hn, rfl⟩, (hk _ e hd he hproper).mp hdir⟩
  · rintro ⟨hpath, hd⟩
    induction hpath with
    | refl => exact .refl
    | tail _ hlast ih =>
        obtain ⟨e, ⟨hp, he, hproper⟩, rfl⟩ := hlast
        apply (ih hp.2).tail
        exact mem_subdirs.mpr ⟨e, he, hproper, (hk _ e hp.2 he hproper).mpr hd, rfl⟩

theorem names_of_subdir (ht : Tree held (view s)) (hk : EntryKinds (view s)) {m : ℕ}
    (hp : Below (subdirs s) rootInodeNo p) (hm : m ∈ subdirs s p) :
    ∃ e, Names s p e ∧ e.inode = m := by
  obtain ⟨hpath, hd⟩ := (below_iff ht hk).mp hp
  obtain ⟨e, he, hproper, -, heq⟩ := mem_subdirs.mp hm
  exact ⟨e, ⟨ht.allocated_of_path hpath hd, he, hproper⟩, heq⟩

theorem subdirs_isTree (ht : Tree held (view s)) (hk : EntryKinds (view s)) :
    IsTree (subdirs s) rootInodeNo where
  root_free := by
    intro x hx hroot
    obtain ⟨e, hn, heq⟩ := names_of_subdir ht hk hx hroot
    have hgt := (ht.links.own_taken (ht.link_names hn)).1
    rw [heq] at hgt
    exact absurd hgt (by decide)
  nodup := by
    intro x hx
    have hd := ((below_iff ht hk).mp hx).2
    have hx' := ht.allocated_of_path ((below_iff ht hk).mp hx).1 hd
    refine List.Nodup.map_on ?_ ((List.Nodup.of_map _ (ht.settled.names x hd)).filter _)
    intro e he e' he' heq
    obtain ⟨hmem, hok⟩ := List.mem_filter.mp he
    obtain ⟨hmem', hok'⟩ := List.mem_filter.mp he'
    exact (ht.intact.once x x e e' ⟨hx', hmem, (of_decide_eq_true hok).1⟩
      ⟨hx', hmem', (of_decide_eq_true hok').1⟩ heq).2
  parent := by
    intro x y z hx hy hzx hzy
    obtain ⟨e, hn, heq⟩ := names_of_subdir ht hk hx hzx
    obtain ⟨e', hn', heq'⟩ := names_of_subdir ht hk hy hzy
    exact (ht.intact.once x y e e' hn hn' (heq.trans heq'.symm)).1

/-! ## The whole search -/

/-- The lines for the directories visited so far, the last first. -/
def linesOf (s : Fs) (searchName : EntryName) (visited : List ℕ) : List (ℕ × DirEntry) :=
  visited.flatMap fun p => push ((matchesIn s searchName p).map (Prod.mk p)) []

theorem linesOf_cons (p : ℕ) (visited : List ℕ) :
    linesOf s searchName (p :: visited) =
      push ((matchesIn s searchName p).map (Prod.mk p)) (linesOf s searchName visited) := by
  unfold linesOf push
  rw [List.flatMap_cons, List.append_nil]

/-- A search that is safe in every turn ends, after a visit to every directory. -/
theorem findLoop_visits (ht : Tree held (view s)) (hk : EntryKinds (view s))
    (hsafe : FindSafe sh s searchName) (hsearch : cString searchName.bytes = searchName.bytes)
    (env : Env) : ∀ (turns : ℕ) (visited : List ℕ) (st : FindState),
    Search (subdirs s) rootInodeNo visited (st.stack.map Prod.fst) →
    Visits s sh.dir_buffer (st.stack.map Prod.fst) st.dir_buffer →
    st.found.map Found.at = linesOf s searchName visited →
    inodesPerGroup < visited.length + turns →
    ∃ st' visited', findLoop env s searchName.bytes turns st = .done st' ∧
      Search (subdirs s) rootInodeNo visited' [] ∧
      st'.found.map Found.at = linesOf s searchName visited' := by
  have hslots : ∀ x, Below (subdirs s) rootInodeNo x → x ∈ Finset.Icc 1 inodesPerGroup := by
    intro x hx
    exact Finset.mem_Icc.mpr (isSlot_of_isDir ((below_iff ht hk).mp hx).2)
  intro turns
  induction turns with
  | zero =>
      intro visited st hsearching _ _ hturns
      have hle := hsearching.length_le hslots
      rw [Nat.card_Icc] at hle
      omega
  | succ turns ih =>
      intro visited st hsearching hvisits hfound hturns
      cases hst : st.stack with
      | nil =>
          rw [hst] at hsearching
          refine ⟨st, visited, ?_, hsearching, hfound⟩
          rw [findLoop, hst]
      | cons x stack =>
          rw [hst, List.map_cons] at hsearching hvisits
          have hbelow := hsearching.below x.1 (List.mem_append_right _ List.mem_cons_self)
          have hd := ((below_iff ht hk).mp hbelow).2
          obtain ⟨st₁, hturn, hbuf₁, hstack₁, hfound₁⟩ :=
            (hsafe _ _ _ hvisits).turn ht.settled hd env x.2 hsearch
              (show ({ st with stack := stack } : FindState).stack.map Prod.fst = _ from rfl)
              (show ({ st with stack := stack } : FindState).dir_buffer = _ from rfl)
          rw [findLoop, hst]
          dsimp only
          rw [hturn]
          refine ih _ _ (hstack₁ ▸ hsearching.visit (subdirs_isTree ht hk)) ?_ ?_ ?_
          · rw [hstack₁, hbuf₁]
            exact hvisits.turn
          · rw [hfound₁, linesOf_cons, ← hfound]
          · rw [List.length_cons]
            omega

/-- A search that comes to its end does not run over `name_buf` on the way. -/
theorem findLoop_not_overrun {search : Text} {st' : FindState} : ∀ {turns turns' : ℕ}
    {st : FindState}, findLoop env s search turns st = .done st' →
    findLoop env s search turns' st ≠ .overrun
  | _, 0, _, _ => nofun
  | 0, _ + 1, _, hdone => by cases hdone
  | turns + 1, turns' + 1, st, hdone => by
      rw [findLoop] at hdone ⊢
      cases hst : st.stack with
      | nil => nofun
      | cons x rest =>
          rw [hst] at hdone
          dsimp only at hdone ⊢
          cases hturn : findTurn env s search x.1 x.2 { st with stack := rest } with
          | none =>
              rw [hturn] at hdone
              cases hdone
          | some st₁ =>
              rw [hturn] at hdone
              exact findLoop_not_overrun hdone

theorem mem_linesOf {visited : List ℕ} {i : ℕ × DirEntry} :
    i ∈ linesOf s searchName visited ↔ i.1 ∈ visited ∧ i.2 ∈ matchesIn s searchName i.1 := by
  obtain ⟨d, e⟩ := i
  unfold linesOf
  simp only [List.mem_flatMap, mem_push, List.mem_map, List.not_mem_nil, or_false, Prod.mk.injEq]
  constructor
  · rintro ⟨p, hp, e, he, rfl, rfl⟩
    exact ⟨hp, he⟩
  · rintro ⟨hp, he⟩
    exact ⟨d, hp, e, he, rfl, rfl⟩

theorem linesOf_nodup {visited : List ℕ} (hv : visited.Nodup)
    (h : ∀ p ∈ visited, ((view s).dirEntries p).Nodup) :
    (linesOf s searchName visited).Nodup := by
  unfold linesOf
  rw [List.nodup_flatMap]
  constructor
  · intro p hp
    unfold push
    rw [List.append_nil, List.nodup_reverse]
    exact ((h p hp).filter _).map fun _ _ heq => (Prod.mk.inj heq).2
  · refine hv.imp fun {p q} hne i hi hi' => ?_
    simp only [mem_push, List.mem_map, List.not_mem_nil, or_false] at hi hi'
    obtain ⟨e, -, rfl⟩ := hi
    obtain ⟨e', -, heq⟩ := hi'
    exact hne (Prod.mk.inj heq).1.symm

/-- **`find` is exact and ends** when it is safe in every turn. -/
theorem find_exact (h : Reachable ProperCall s) (sh : Statics) (env : Env)
    (hlen : searchName.len ≠ 0) (hstring : (0 : BitVec 8) ∉ searchName.bytes)
    (hsafe : FindSafe sh s searchName) : FindExact env sh s searchName := by
  obtain ⟨held, ht, hk⟩ := reachable_kinds h
  have hcmd : ∀ turns, cmdFind env sh s searchName turns =
      findLoop env s searchName.bytes turns (findStart sh) := fun _ => if_neg hlen
  have hfits : (findStart sh).Fits := by
    apply FindState.Fits.push
    exact ⟨Nat.zero_le _, fun x hx => absurd hx List.not_mem_nil,
      fun f hf => absurd hf List.not_mem_nil⟩
  obtain ⟨st, visited, hdone, hend, hfound⟩ := findLoop_visits ht hk hsafe
    (cString_of_no_zero hstring) env (inodesPerGroup + 1) [] (findStart sh)
    Search.start .start rfl (by omega)
  obtain ⟨hnodup, hall⟩ := hend.finished
  refine ⟨fun turns => ?_, fun turns st' hst' => ?_, inodesPerGroup + 1, st, ?_, ?_, ?_, ?_⟩
  · rw [hcmd]
    exact findLoop_not_overrun hdone
  · rw [hcmd] at hst'
    exact findLoop_fits hfits st' (Or.inl hst')
  · rw [hcmd, hdone]
  · exact findLoop_fits hfits st (Or.inr hdone)
  · rw [hfound]
    apply linesOf_nodup hnodup
    intro p hp
    exact List.Nodup.of_map _ (ht.settled.names p ((below_iff ht hk).mp ((hall p).mp hp)).2)
  · intro i
    rw [hfound, mem_linesOf, mem_matchesIn, hall, below_iff ht hk]
    constructor
    · rintro ⟨⟨hpath, hd⟩, he, hproper, heq⟩
      exact ⟨hpath, ⟨ht.allocated_of_path hpath hd, he, hproper⟩, heq⟩
    · rintro ⟨hpath, ⟨hp, he, hproper⟩, heq⟩
      exact ⟨⟨hpath, hp.2⟩, he, hproper, heq⟩

/-! ## A safe search -/

/-- The search for `a` in the tree that holds the file `a` only. -/
theorem smallFile_findSafe :
    FindSafe ⟨2, fun _ => 0, fun _ => 0⟩ (smallFile.run .zero freshFs).2 (.letter 0x61) := by
  have hroot : subdirs (smallFile.run .zero freshFs).2 rootInodeNo = [] ∧
      (∀ e ∈ shownEntries (smallFile.run .zero freshFs).2 rootInodeNo, e.name.len < 64) ∧
      (∀ e ∈ shownEntries (smallFile.run .zero freshFs).2 rootInodeNo, e.name.Proper →
        ¬ IsDots (cString e.name.bytes) ∧
          (cString e.name.bytes = (EntryName.letter 0x61).bytes → e.name = .letter 0x61)) ∧
      hiddenEntries (smallFile.run .zero freshFs).2 rootInodeNo = [] ∧
      staleEntries (smallFile.run .zero freshFs).2 rootInodeNo (fun _ => 0) = [] := by
    decide +kernel
  generalize (smallFile.run .zero freshFs).2 = s at *
  obtain ⟨hsubs, hshort, hplain, hhidden, hstale⟩ := hroot
  have hvisits : ∀ stack mem, Visits s (fun _ => 0) stack mem →
      stack = [rootInodeNo] ∧ mem = (fun _ => 0) ∨ stack = [] := by
    intro stack mem h
    induction h with
    | start => exact Or.inl ⟨rfl, rfl⟩
    | turn _ ih =>
        rcases ih with ⟨hstack, -⟩ | hstack
        · obtain ⟨rfl, rfl⟩ := List.cons.inj hstack
          rw [hsubs]
          exact Or.inr rfl
        · cases hstack
  intro p rest mem h
  rcases hvisits _ _ h with ⟨hstack, rfl⟩ | hstack
  · obtain ⟨rfl, rfl⟩ := List.cons.inj hstack
    refine ⟨?_, hshort, hplain, ?_, ?_⟩
    · rw [hsubs]
      exact Nat.zero_le _
    · rw [hhidden]
      nofun
    · rw [hstale]
      nofun
  · cases hstack

theorem find_smallFile :
    FindExact .zero ⟨2, fun _ => 0, fun _ => 0⟩ (smallFile.run .zero freshFs).2 (.letter 0x61) :=
  find_exact ((Reachable.fresh ProperCall).step .zero (by decide +kernel)) _ _ (by decide)
    (by decide) smallFile_findSafe

/-! ## A name that fills `name_buf` -/

theorem findEntries_overrun {search path : Text} {dir : ℕ} {es : List DirEntry}
    (he : e ∈ es) (hlong : 64 ≤ e.name.len) :
    ∀ st, findEntries search dir path es st = none := by
  induction es with
  | nil => cases he
  | cons e' es ih =>
      intro st
      rw [findEntries]
      rcases List.mem_cons.mp he with rfl | hrest
      · rw [nameBuf, if_neg (by omega)]
      · cases nameBuf e'.name with
        | none => rfl
        | some name =>
            dsimp only
            split <;> exact ih hrest _

/-- A name of 64 bytes or more in the root directory ends every search with an
overrun, whatever is searched. -/
theorem find_overrun (h : Reachable ProperCall s) (sh : Statics) (env : Env)
    (hlen : searchName.len ≠ 0) (he : e ∈ shownEntries s rootInodeNo)
    (hlong : 64 ≤ e.name.len) : cmdFind env sh s searchName 1 = .overrun := by
  obtain ⟨held, ht, -⟩ := reachable_kinds h
  have hturn : findTurn env s searchName.bytes rootInodeNo slash
      { stack := [], dir_buffer := sh.dir_buffer, found := [] } = none := by
    unfold findTurn
    rw [readDirectory_dir ht.settled ht.root env _ rfl]
    dsimp only
    rw [if_neg (by decide), entriesFrom_overlay ht.settled ht.root]
    exact findEntries_overrun (List.mem_append_left _ he) hlong _
  have hstart : findStart sh = ⟨[(rootInodeNo, slash)], sh.dir_buffer, []⟩ := rfl
  rw [cmdFind, if_neg hlen, hstart, findLoop]
  dsimp only
  rw [hturn]

/-- A file with a name of 65 bytes in the root directory. -/
def wideFile : Call := .write (.file 2 ⟨List.replicate 65 0x61, by decide⟩ [])

theorem find_wideFile :
    Reachable ProperCall (wideFile.run .zero freshFs).2 ∧
      ¬ FindExact .zero ⟨2, fun _ => 0, fun _ => 0⟩ (wideFile.run .zero freshFs).2
        (.letter 0x61) := by
  have hreach : Reachable ProperCall (wideFile.run .zero freshFs).2 :=
    (Reachable.fresh ProperCall).step .zero (by decide +kernel)
  have hlong : (shownEntries (wideFile.run .zero freshFs).2 rootInodeNo).any
      (fun e => decide (64 ≤ e.name.len)) = true := by
    decide +kernel
  obtain ⟨e, he, hlen⟩ := List.any_eq_true.mp hlong
  refine ⟨hreach, ?_⟩
  rintro ⟨hno, -⟩
  exact hno 1 (find_overrun hreach _ _ (by decide) he (of_decide_eq_true hlen))

end RendangOS.Shell
