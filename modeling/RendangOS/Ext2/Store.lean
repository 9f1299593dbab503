import RendangOS.Ext2.FileContent
import RendangOS.Lib.NodeStore
import RendangOS.Lib.Simulation

/-!
# The file system as a store of files

What the file system is for: a store whose nodes are directories and files,
numbered from 1 to 64. A directory maps names to nodes, a file holds the bytes
that can be read from it. There are no bitmaps, tables or blocks here, only the
number of blocks each node has and the number that are free. What `write` does is
determined but for one choice: whether the entry fits in the blocks the parent
has.
-/

namespace RendangOS.Ext2

open NodeStore

/-- What a node holds besides its names: for `stat`, the mode and the size; for
`read`, the bytes. -/
structure NodeData where
  is_dir : Bool
  size : BitVec 32
  bytes : List (BitVec 8)
  blocks : ℕ

abbrev FsNode := Node ℕ EntryName NodeData

@[ext] structure Store where
  node : ℕ → Option FsNode
  free : ℕ

/-- A directory with a child. -/
def HasChildren (x : FsNode) : Prop := ∃ name : EntryName, name.Proper ∧ x.entries name ≠ none

/-- The entries of a new directory. -/
def dotNames (n parent : ℕ) : EntryName → Option ℕ :=
  Function.update (Function.update (fun _ => none) .dotdot (some parent)) .dot (some n)

/-- The node that `write` stores under number `n`, with `free` blocks left. -/
def newNode (r : Request) (n free : ℕ) : FsNode :=
  let blocks := min (demand r) free
  if r.is_directory then
    { entries := if blocks = 0 then fun _ => none else dotNames n r.parent
      data := ⟨true, BitVec.ofNat 32 (512 * blocks), [], blocks⟩ }
  else
    { entries := fun _ => none
      data := ⟨false, r.buffer_size, (List.range (readable r.size blocks)).map r.buf, blocks⟩ }

@[simp] theorem newNode_blocks (r : Request) (n free : ℕ) :
    (newNode r n free).data.blocks = min (demand r) free := by
  unfold newNode
  dsimp only
  split <;> rfl

/-- The parent with the new name, in the blocks it has. -/
def FsNode.named (y : FsNode) (name : EntryName) (n : ℕ) : FsNode :=
  { y with entries := Function.update y.entries name (some n) }

/-- The parent with the new name, in a block it did not have before. -/
def FsNode.grown (y : FsNode) (name : EntryName) (n : ℕ) : FsNode where
  entries := Function.update y.entries name (some n)
  data := { y.data with size := y.data.size + 512, blocks := y.data.blocks + 1 }

@[simp] theorem FsNode.grown_is_dir (y : FsNode) (name : EntryName) (n : ℕ) :
    (y.grown name n).data.is_dir = y.data.is_dir := by
  unfold FsNode.grown
  rfl

def FsNode.unnamed (y : FsNode) (name : EntryName) : FsNode :=
  { y with entries := Function.update y.entries name none }

namespace Store

def IsDir (A : Store) (p : ℕ) : Prop := ∃ y, A.node p = some y ∧ y.data.is_dir = true

/-- The number that the next node gets. -/
structure Next (A : Store) (n : ℕ) : Prop where
  slot : IsSlot n
  unused : A.node n = none
  least : ∀ m, 1 ≤ m → m < n → A.node m ≠ none

/-- With the node `x` under number `n`. -/
def put (A : Store) (n : ℕ) (x : FsNode) : Store where
  node := Function.update A.node n (some x)
  free := A.free - x.data.blocks

def setNode (A : Store) (p : ℕ) (y : FsNode) : Store :=
  { A with node := Function.update A.node p (some y) }

/-- Without node `t`, whose blocks are free again. -/
def drop (A : Store) (t : ℕ) (x : FsNode) : Store where
  node := Function.update A.node t none
  free := A.free + x.data.blocks

/-- What `write` answers, and the store it leaves. -/
inductive Write (A : Store) (r : Request) : ℤ → Store → Prop
  | taken {y : FsNode} {t : ℕ} : A.node r.parent = some y → y.entries r.name = some t →
      Write A r 1 A
  | noInode {y : FsNode} : A.node r.parent = some y → y.entries r.name = none →
      (∀ n, IsSlot n → A.node n ≠ none) → Write A r (-1) A
  /-- The node is stored, but the parent has no room for its name. -/
  | orphan {y : FsNode} {n : ℕ} : A.node r.parent = some y → y.entries r.name = none →
      A.Next n → y.data.blocks = 12 ∨ A.free ≤ demand r →
      Write A r (-1) (A.put n (newNode r n A.free))
  | named {y : FsNode} {n : ℕ} : A.node r.parent = some y → y.entries r.name = none →
      A.Next n →
      Write A r 0 ((A.put n (newNode r n A.free)).setNode r.parent (y.named r.name n))
  | grown {y : FsNode} {n : ℕ} : A.node r.parent = some y → y.entries r.name = none →
      A.Next n → y.data.blocks < 12 → demand r < A.free →
      Write A r 0 { (A.put n (newNode r n A.free)).setNode r.parent (y.grown r.name n) with
        free := A.free - demand r - 1 }

/-- What `delete` answers, and the store it leaves. A directory that was stored
without a block has no `"."`; whether such a directory is taken to be empty is
left open. -/
inductive Delete (A : Store) (r : Request) : ℤ → Store → Prop
  | nameless : r.name_null = true ∨ r.name.len = 0 → Delete A r (-1) A
  | absent {y : FsNode} : ¬ (r.name_null = true ∨ r.name.len = 0) → A.node r.parent = some y →
      y.entries r.name = none → Delete A r 1 A
  | kind {y x : FsNode} {t : ℕ} : ¬ (r.name_null = true ∨ r.name.len = 0) →
      A.node r.parent = some y → y.entries r.name = some t → A.node t = some x →
      x.data.is_dir ≠ r.is_directory → Delete A r 1 A
  | full {y x : FsNode} {t : ℕ} : ¬ (r.name_null = true ∨ r.name.len = 0) →
      A.node r.parent = some y → y.entries r.name = some t → A.node t = some x →
      x.data.is_dir = true → r.is_directory = true → HasChildren x ∨ x.entries .dot = none →
      Delete A r 2 A
  | removed {y x : FsNode} {t : ℕ} : ¬ (r.name_null = true ∨ r.name.len = 0) →
      A.node r.parent = some y → y.entries r.name = some t → A.node t = some x →
      x.data.is_dir = r.is_directory →
      (r.is_directory = true → ¬ HasChildren x ∨ x.entries .dot = none) →
      Delete A r 0 ((A.setNode r.parent (y.unnamed r.name)).drop t x)

variable {A A' : Store} {r : Request} {code : ℤ} {q : ℕ}

theorem Write.eq_of_taken (h : A.Write r code A') (hcode : code = 1) : A' = A := by
  cases h with
  | taken => rfl
  | noInode => rfl
  | orphan => exact absurd hcode (by decide)
  | named => exact absurd hcode (by decide)
  | grown => exact absurd hcode (by decide)

theorem Write.isDir (h : A.Write r code A') (hq : A.IsDir q) : A'.IsDir q := by
  obtain ⟨z, hz, hd⟩ := hq
  have hput : ∀ {n x}, A.Next n → (A.put n x).node q = some z := by
    intro n x hnext
    have hne : q ≠ n := by
      rintro rfl
      cases hz.symm.trans hnext.unused
    exact (Function.update_of_ne hne ..).trans hz
  have hparent : ∀ {n x y y'}, A.Next n → A.node r.parent = some y →
      y'.data.is_dir = y.data.is_dir → ((A.put n x).setNode r.parent y').IsDir q := by
    intro n x y y' hnext hy hsame
    by_cases hqp : q = r.parent
    · subst hqp
      obtain rfl : z = y := Option.some.inj (hz.symm.trans hy)
      exact ⟨y', Function.update_self .., hsame.trans hd⟩
    · exact ⟨z, (Function.update_of_ne hqp ..).trans (hput hnext), hd⟩
  cases h with
  | taken => exact ⟨z, hz, hd⟩
  | noInode => exact ⟨z, hz, hd⟩
  | orphan _ _ hnext => exact ⟨z, hput hnext, hd⟩
  | named hy _ hnext => exact hparent hnext hy rfl
  | grown hy _ hnext => exact hparent (x := newNode r _ _) hnext hy (FsNode.grown_is_dir ..)

/-- A `delete` of a file leaves all directories. -/
theorem Delete.isDir (h : A.Delete r code A') (hfile : r.is_directory = false)
    (hq : A.IsDir q) : A'.IsDir q := by
  cases h with
  | nameless => exact hq
  | absent => exact hq
  | kind => exact hq
  | full => exact hq
  | @removed y x t _ hy ht hx hkind _ =>
      obtain ⟨z, hz, hd⟩ := hq
      have hqt : q ≠ t := by
        rintro rfl
        rw [hx] at hz
        cases hz
        rw [hkind, hfile] at hd
        cases hd
      by_cases hqp : q = r.parent
      · subst hqp
        obtain rfl : y = z := Option.some.inj (hy.symm.trans hz)
        exact ⟨y.unnamed r.name, by simp [Store.drop, Store.setNode, hqt], hd⟩
      · exact ⟨z, by simp [Store.drop, Store.setNode, hqt, hqp, hz], hd⟩

/-- The answer of `read` in a directory. A name may lead to no node only where it
is the `".."` of a directory whose parent has been removed. -/
def read (A : Store) (q : Request) : ℤ × (ℕ → BitVec 8) :=
  match link A.node q.parent q.name with
  | none => (3, q.buf)
  | some t =>
      match A.node t with
      | none => (0, q.buf)
      | some x =>
          if x.data.is_dir then (1, q.buf)
          else (0, fun k => if k < q.size then x.data.bytes[k]?.getD (q.buf k) else q.buf k)

def stat (A : Store) (name : EntryName) (null : Bool) (parent : ℕ) :
    ℤ × Option (BitVec 32 × Bool) :=
  if null = true ∨ name.len = 0 then (-1, none)
  else
    match link A.node parent name with
    | none => (1, none)
    | some t =>
        match A.node t with
        | none => (0, some (0, false))
        | some x => (0, some (x.data.size, x.data.is_dir))

/-- The store that `create_ext2` makes: a root, and ten nodes kept back. -/
def empty : Store where
  node := fun n =>
    if n = rootInodeNo then some ⟨dotNames rootInodeNo rootInodeNo, true, 512, [], 1⟩
    else if 1 ≤ n ∧ n ≤ initialUsedInodes then some ⟨fun _ => none, false, 0, [], 0⟩
    else none
  free := blocksPerGroup - initialUsedBlocks

end Store

/-! ## What an observer sees -/

/-- A call together with its answer. -/
inductive Action where
  | write (r : Request) (code : ℤ)
  | delete (r : Request) (code : ℤ)
  | read (q : Request) (answer : ℤ × (ℕ → BitVec 8))
  | stat (name : EntryName) (null : Bool) (parent : ℕ) (answer : ℤ × Option (BitVec 32 × Bool))

/-- Calls on directories, with names that a directory is not born with. -/
def storeSystem : System Action where
  State := Store
  step := fun A a A' =>
    match a with
    | .write r code => A.IsDir r.parent ∧ r.name.Proper ∧ A.Write r code A'
    | .delete r code => A.IsDir r.parent ∧ r.name.Proper ∧ A.Delete r code A'
    | .read q answer => A.IsDir q.parent ∧ A.read q = answer ∧ A' = A
    | .stat name null parent answer =>
        A.IsDir parent ∧ A.stat name null parent = answer ∧ A' = A

/-- The same calls on the file system, in any environment. -/
def fsSystem : System Action where
  State := Fs
  step := fun s a s' =>
    match a with
    | .write r code => ProperCall s (.write r) ∧ ∃ env, write env s r = (code, s')
    | .delete r code => ProperCall s (.delete r) ∧ ∃ env, delete env s r = (code, s')
    | .read q answer => AllocatedDir s q.parent ∧ (∃ env, read env s q = answer) ∧ s' = s
    | .stat name null parent answer =>
        AllocatedDir s parent ∧ (∃ env, stat env s name null parent = answer) ∧ s' = s

end RendangOS.Ext2
