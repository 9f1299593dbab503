import RendangOS.Lib.PageWindow
import Mathlib.Data.List.Range
import Mathlib.Logic.Function.Basic

/-!
# The terminal of the system calls

`SYSCALL_PUTCHAR`, `SYSCALL_PUTS` and `framebuffer_write`. Both calls run the
same loop body for each character, which moves `sys_row` and `sys_col` over the
80x25 cells of the video memory and scrolls it. Addresses `0xB8000` and
`0xC00B8000` are the same memory. A cell is one 16-bit word: the character below
its attribute.
-/

namespace RendangOS.Driver

open PageWindow

/-! ## The state -/

@[simp] def framebufferWidth : ℕ := 80
/-- The video memory with `sys_row` and `sys_col`. `writes` remembers where
`framebuffer_write` was called. -/
structure Display where
  video_memory : ℕ → BitVec 16
  sys_row : BitVec 8
  sys_col : BitVec 8
  writes : List (BitVec 8 × BitVec 8)

/-- `cursor` is the pair of registers `0x0E` and `0x0F` of the CRT controller. -/
structure Terminal extends Display where
  cursor : BitVec 8 × BitVec 8

/-- A screen with the cursor at (0, 0). -/
def Terminal.start (video_memory : ℕ → BitVec 16) : Terminal where
  video_memory := video_memory
  sys_row := 0
  sys_col := 0
  writes := []
  cursor := (0, 0)

/-! ## framebuffer.c -/

/-- `c | (attribute << 8)`: both operands are promoted to `int`, and `char` is
signed. -/
def packCell (c fg bg : BitVec 8) : BitVec 16 :=
  let attr : BitVec 8 := (bg <<< 4) ||| (fg &&& 0x0F#8)
  (c.signExtend 32 ||| attr.setWidth 32 <<< 8).setWidth 16

def framebufferWrite (d : Display) (row col c fg bg : BitVec 8) : Display :=
  let position : BitVec 16 := BitVec.ofNat 16 (row.toNat * framebufferWidth + col.toNat)
  { d with
    video_memory := Function.update d.video_memory position.toNat (packCell c fg bg)
    writes := d.writes ++ [(row, col)] }

def framebufferSetCursor (t : Terminal) (r c : BitVec 8) : Terminal :=
  let position : BitVec 16 := BitVec.ofNat 16 (r.toNat * framebufferWidth + c.toNat)
  { t with cursor := ((position >>> 8).setWidth 8, position.setWidth 8) }

/-! ## interrupt.c -/

@[simp] def charBackspace : BitVec 8 := 0x08#8
@[simp] def charNewline : BitVec 8 := 0x0A#8
@[simp] def charSpace : BitVec 8 := 0x20#8

/-- One row of the copy: `fb[row * 80 + col] = fb[(row + 1) * 80 + col]`. -/
def copyRow (fb : ℕ → BitVec 16) (row : ℕ) : ℕ → BitVec 16 :=
  (List.range 80).foldl
    (fun fb col => Function.update fb (row * 80 + col) (fb ((row + 1) * 80 + col))) fb

/-- All lines move up by one, and the last one is cleared. -/
def scroll (d : Display) : Display :=
  if d.sys_row.toNat ≥ 25 then
    let copied := { d with video_memory := (List.range 24).foldl copyRow d.video_memory }
    let cleared := (List.range 80).foldl
      (fun d col => framebufferWrite d 24 (BitVec.ofNat 8 col) charSpace 0x07 0) copied
    { cleared with sys_row := 24 }
  else d

/-- `sys_col--`, or the end of the row above. -/
def stepBack (d : Display) : Display :=
  if d.sys_col.toNat > 0 then { d with sys_col := d.sys_col - 1 }
  else if d.sys_row.toNat > 0 then { d with sys_row := d.sys_row - 1, sys_col := 79 }
  else d

/-- `sys_col++`, or the start of the row below. -/
def stepOn (d : Display) : Display :=
  let next := { d with sys_col := d.sys_col + 1 }
  if next.sys_col.toNat ≥ 80 then { next with sys_col := 0, sys_row := next.sys_row + 1 }
  else next

/-- The loop body of the two system calls. -/
def putc (d : Display) (c color : BitVec 8) : Display :=
  scroll <|
    if c = charBackspace then
      framebufferWrite (stepBack d) (stepBack d).sys_row (stepBack d).sys_col charSpace color 0
    else if c = charNewline then { d with sys_col := 0, sys_row := d.sys_row + 1 }
    else stepOn (framebufferWrite d d.sys_row d.sys_col c color 0)

/-- `SYSCALL_PUTCHAR`: the character is in `ebx`, the color in `ecx`. -/
def syscallPutchar (t : Terminal) (ebx ecx : BitVec 32) : Terminal :=
  let t := { t with toDisplay := putc t.toDisplay (ebx.setWidth 8) (ecx.setWidth 8) }
  framebufferSetCursor t t.sys_row t.sys_col

/-- `SYSCALL_PUTS`: `str` is the memory from `ebx` on, the length is in `ecx`, the
color in `edx`. -/
def syscallPuts (t : Terminal) (str : ℕ → BitVec 8) (ecx edx : BitVec 32) : Terminal :=
  let display := (List.range ecx.toNat).foldl
    (fun d i => putc d (str i) (edx.setWidth 8)) t.toDisplay
  let t := { t with toDisplay := display }
  framebufferSetCursor t t.sys_row t.sys_col

inductive TerminalCall where
  | putchar (ebx ecx : BitVec 32)
  | puts (str : ℕ → BitVec 8) (ecx edx : BitVec 32)

def TerminalCall.run (t : Terminal) : TerminalCall → Terminal
  | .putchar ebx ecx => syscallPutchar t ebx ecx
  | .puts str ecx edx => syscallPuts t str ecx edx

def runTerminal (t : Terminal) (calls : List TerminalCall) : Terminal :=
  calls.foldl TerminalCall.run t

/-! ## What is displayed -/

/-- The characters of a call with their colors. -/
def TerminalCall.chars : TerminalCall → List (BitVec 8 × BitVec 8)
  | .putchar ebx ecx => [(ebx.setWidth 8, ecx.setWidth 8)]
  | .puts str ecx edx => (List.range ecx.toNat).map fun i => (str i, edx.setWidth 8)

/-- The characters of a list of calls, one behind the other. -/
def written (calls : List TerminalCall) : List (BitVec 8 × BitVec 8) :=
  calls.flatMap TerminalCall.chars

/-- The cell of a character: its byte below the color on black. -/
def charCell (c color : BitVec 8) : BitVec 16 :=
  (color &&& 0x0F#8).setWidth 16 <<< 8 ||| c.setWidth 16

def blankCell : BitVec 16 := charCell charSpace 0x07

/-- What a character does on the page, where `cell` makes the cells. -/
def charKey (cell : BitVec 8 → BitVec 8 → BitVec 16) (ch : BitVec 8 × BitVec 8) :
    Key (BitVec 16) :=
  if ch.1 = charBackspace then .erase (cell charSpace ch.2)
  else if ch.1 = charNewline then .newline
  else .glyph (cell ch.1 ch.2)

/-- The page that starts as the screen. -/
def startPage (video_memory : ℕ → BitVec 16) : Page (BitVec 16) where
  cell := fun r c => if r < 25 then video_memory (r * 80 + c) else blankCell
  top := 0
  row := 0
  col := 0

/-- The page after the characters `chs`. -/
def pageAfter (video_memory : ℕ → BitVec 16) (chs : List (BitVec 8 × BitVec 8)) :
    Page (BitVec 16) :=
  (startPage video_memory).pressAll 25 80 blankCell (chs.map (charKey charCell))

/-- The 80x25 cells and the cursor. -/
def Display.screen (d : Display) : Screen (BitVec 16) 25 80 where
  cell := fun r c => d.video_memory (r.val * 80 + c.val)
  row := d.sys_row.toNat
  col := d.sys_col.toNat

structure Display.InRange (d : Display) : Prop where
  row : d.sys_row.toNat < 25
  col : d.sys_col.toNat < 80
  writes : ∀ w ∈ d.writes, w.1.toNat < 25 ∧ w.2.toNat < 80

def putAll (d : Display) (chs : List (BitVec 8 × BitVec 8)) : Display :=
  chs.foldl (fun d ch => putc d ch.1 ch.2) d

/-- The display when the first `n` characters of a call are written. -/
def TerminalCall.displayAfter (t : Terminal) (call : TerminalCall) (n : ℕ) : Display :=
  putAll t.toDisplay (call.chars.take n)

/-- A run of calls keeps to the screen, shows the window of the page after every
character, and depends only on what is written. -/
structure DisplaysWritten (video_memory : ℕ → BitVec 16) (calls : List TerminalCall) : Prop where
  in_range : ∀ before call after n, calls = before ++ call :: after → n ≤ call.chars.length →
    (call.displayAfter (runTerminal (.start video_memory) before) n).InRange
  shows : ∀ before call after n, calls = before ++ call :: after → n ≤ call.chars.length →
    Shows (call.displayAfter (runTerminal (.start video_memory) before) n).screen
      (pageAfter video_memory (written before ++ call.chars.take n))
  undivided : ∀ calls', written calls' = written calls →
    runTerminal (.start video_memory) calls' = runTerminal (.start video_memory) calls

/-! ## The cell -/

/-- Below `0x80` the sign extension is no other than the zero extension. -/
theorem packCell_eq {c : BitVec 8} (hc : c.toNat < 0x80) (color : BitVec 8) :
    packCell c color 0 = charCell c color := by
  have hmsb : c.msb = false := by
    rw [BitVec.msb_eq_false_iff_two_mul_lt]
    omega
  rw [packCell, BitVec.signExtend_eq_setWidth_of_msb_false hmsb, charCell]
  ext i hi
  simp [Bool.or_comm]

/-- The sign bit of the character reaches the attribute. -/
theorem packCell_ne {c : BitVec 8} (hc : ¬ c.toNat < 0x80) (color : BitVec 8) :
    packCell c color 0 ≠ charCell c color := by
  have hmsb : c.msb = true := by
    rw [BitVec.msb_eq_true_iff_two_mul_ge]
    omega
  intro h
  have hbit := congrArg (BitVec.getLsbD · 15) h
  simp [packCell, charCell, BitVec.getElem_signExtend, hmsb] at hbit

theorem charKey_packCell {ch : BitVec 8 × BitVec 8} (hch : ch.1.toNat < 0x80) :
    charKey (packCell · · 0) ch = charKey charCell ch := by
  have hspace : packCell charSpace ch.2 0 = charCell charSpace ch.2 := packCell_eq (by decide) _
  simp only [charKey, hspace, packCell_eq hch]

/-! ## The loop body on the screen -/

variable {d : Display} {row col c fg bg : BitVec 8}

theorem position_toNat (hrow : row.toNat < 25) (hcol : col.toNat < 80) :
    (BitVec.ofNat 16 (row.toNat * framebufferWidth + col.toNat)).toNat =
      row.toNat * 80 + col.toNat := by
  rw [BitVec.toNat_ofNat, framebufferWidth]
  exact Nat.mod_eq_of_lt (by omega)

theorem framebufferWrite_screen (hrow : d.sys_row.toNat < 25) (hcol : d.sys_col.toNat < 80) :
    (framebufferWrite d d.sys_row d.sys_col c fg bg).screen =
      d.screen.store (packCell c fg bg) := by
  unfold framebufferWrite Display.screen Screen.store
  dsimp only
  rw [position_toNat hrow hcol]
  congr 1
  funext r k
  have hk := k.isLt
  have hplace : r.val * 80 + k.val = d.sys_row.toNat * 80 + d.sys_col.toNat ↔
      r.val = d.sys_row.toNat ∧ k.val = d.sys_col.toNat := by omega
  rw [Function.update_apply, if_congr hplace rfl rfl]

theorem framebufferWrite_inRange (h : d.InRange) (c fg bg : BitVec 8) :
    (framebufferWrite d d.sys_row d.sys_col c fg bg).InRange where
  row := h.row
  col := h.col
  writes := by
    intro w hw
    rcases List.mem_append.mp hw with hw | hw
    · exact h.writes w hw
    · rw [List.mem_singleton] at hw
      exact hw ▸ ⟨h.row, h.col⟩

/-- After `k` columns of the copy, the words behind them are as they were. -/
theorem copyRow_upTo (fb : ℕ → BitVec 16) (row k : ℕ) (hk : k ≤ 80) (p : ℕ) :
    (List.range k).foldl (fun fb col =>
        Function.update fb (row * 80 + col) (fb ((row + 1) * 80 + col))) fb p =
      if row * 80 ≤ p ∧ p < row * 80 + k then fb (p + 80) else fb p := by
  induction k generalizing p with
  | zero => exact (if_neg (by omega)).symm
  | succ k ih =>
      rw [List.range_succ, List.foldl_append, List.foldl_cons, List.foldl_nil,
        Function.update_apply]
      by_cases hp : p = row * 80 + k
      · subst hp
        have hsrc : (row + 1) * 80 + k = row * 80 + k + 80 := by omega
        rw [if_pos rfl, ih (by omega), if_neg (by omega), if_pos (by omega), hsrc]
      · rw [if_neg hp, ih (by omega)]
        have hsame : row * 80 ≤ p ∧ p < row * 80 + k ↔
            row * 80 ≤ p ∧ p < row * 80 + (k + 1) := by omega
        rw [if_congr hsame rfl rfl]

/-- After `k` rows of the copy. -/
theorem copyRows_upTo (fb : ℕ → BitVec 16) (k p : ℕ) :
    (List.range k).foldl copyRow fb p = if p < k * 80 then fb (p + 80) else fb p := by
  induction k generalizing p with
  | zero => exact (if_neg (by omega)).symm
  | succ k ih =>
      rw [List.range_succ, List.foldl_append, List.foldl_cons, List.foldl_nil, copyRow,
        copyRow_upTo _ _ _ le_rfl]
      by_cases hrow : k * 80 ≤ p ∧ p < k * 80 + 80
      · rw [if_pos hrow, ih, if_neg (by omega), if_pos (by omega)]
      · rw [if_neg hrow, ih]
        have hsame : p < k * 80 ↔ p < (k + 1) * 80 := by omega
        rw [if_congr hsame rfl rfl]

/-- The display after `k` columns of the last row are cleared. -/
def clearedTo (d : Display) (k : ℕ) : Display :=
  (List.range k).foldl
    (fun d col => framebufferWrite d 24 (BitVec.ofNat 8 col) charSpace 0x07 0) d

theorem clearedTo_succ (d : Display) (k : ℕ) :
    clearedTo d (k + 1) =
      framebufferWrite (clearedTo d k) 24 (BitVec.ofNat 8 k) charSpace 0x07 0 := by
  rw [clearedTo, List.range_succ, List.foldl_append, List.foldl_cons, List.foldl_nil]
  rfl

theorem clearedTo_spec (d : Display) {k : ℕ} (hk : k ≤ 80) :
    (clearedTo d k).sys_row = d.sys_row ∧ (clearedTo d k).sys_col = d.sys_col ∧
    (∀ p, (clearedTo d k).video_memory p =
      if 1920 ≤ p ∧ p < 1920 + k then blankCell else d.video_memory p) ∧
    ((∀ w ∈ d.writes, w.1.toNat < 25 ∧ w.2.toNat < 80) →
      ∀ w ∈ (clearedTo d k).writes, w.1.toNat < 25 ∧ w.2.toNat < 80) := by
  induction k with
  | zero => exact ⟨rfl, rfl, fun p => (if_neg (by omega)).symm, id⟩
  | succ k ih =>
      obtain ⟨hrow, hcol, hcells, hwrites⟩ := ih (by omega)
      have hcolNat : (BitVec.ofNat 8 k).toNat = k := by
        rw [BitVec.toNat_ofNat]
        exact Nat.mod_eq_of_lt (by omega)
      rw [clearedTo_succ]
      refine ⟨hrow, hcol, fun p => ?_, fun hin w hw => ?_⟩
      · change Function.update (clearedTo d k).video_memory _ (packCell charSpace 0x07 0) p = _
        have hlast : (24 : BitVec 8).toNat * 80 + k = 1920 + k := rfl
        rw [position_toNat (by decide) (by rw [hcolNat]; omega), hcolNat, Function.update_apply,
          packCell_eq (by decide), hlast]
        by_cases hp : p = 1920 + k
        · rw [if_pos hp, if_pos (by omega)]
          rfl
        · rw [if_neg hp, hcells]
          have hsame : 1920 ≤ p ∧ p < 1920 + k ↔ 1920 ≤ p ∧ p < 1920 + (k + 1) := by omega
          rw [if_congr hsame rfl rfl]
      · rcases List.mem_append.mp hw with hw | hw
        · exact hwrites hin w hw
        · rw [List.mem_singleton] at hw
          subst hw
          have hin24 : (24 : BitVec 8).toNat < 25 := by decide
          exact ⟨hin24, by change (BitVec.ofNat 8 k).toNat < 80; omega⟩

/-- The scroll of the display is the scroll of the screen. -/
theorem scroll_screen (hrow : d.sys_row.toNat ≤ 25) :
    (scroll d).screen = d.screen.scroll blankCell := by
  unfold scroll Screen.scroll
  by_cases hlt : d.sys_row.toNat < 25
  · rw [if_neg (by omega), if_pos (show d.screen.row < 25 from hlt)]
  · rw [if_pos (by omega), if_neg (show ¬ d.screen.row < 25 from hlt)]
    obtain ⟨-, hcol, hcells, -⟩ := clearedTo_spec
      { d with video_memory := (List.range 24).foldl copyRow d.video_memory } (k := 80) le_rfl
    change Display.screen { clearedTo _ 80 with sys_row := 24 } = _
    unfold Display.screen
    dsimp only
    rw [hcol]
    congr 1
    funext r c
    have hc := c.isLt
    have hr := r.isLt
    rw [hcells]
    by_cases hup : r.val + 1 < 25
    · have hbelow : r.val * 80 + c.val + 80 = (r.val + 1) * 80 + c.val := by omega
      rw [if_neg (by omega), dif_pos hup]
      dsimp only
      rw [copyRows_upTo, if_pos (by omega), hbelow]
    · rw [if_pos (by omega), dif_neg hup]

theorem scroll_inRange (hrow : d.sys_row.toNat ≤ 25) (hcol : d.sys_col.toNat < 80)
    (hwrites : ∀ w ∈ d.writes, w.1.toNat < 25 ∧ w.2.toNat < 80) : (scroll d).InRange := by
  unfold scroll
  by_cases hlt : d.sys_row.toNat < 25
  · rw [if_neg (by omega)]
    exact ⟨hlt, hcol, hwrites⟩
  · rw [if_pos (by omega)]
    obtain ⟨-, hcol', -, hwrites'⟩ := clearedTo_spec
      { d with video_memory := (List.range 24).foldl copyRow d.video_memory } (k := 80) le_rfl
    change Display.InRange { clearedTo _ 80 with sys_row := 24 }
    generalize clearedTo _ 80 = cleared at *
    have h24 : (24 : BitVec 8).toNat < 25 := by decide
    exact ⟨h24, lt_of_eq_of_lt (congrArg BitVec.toNat hcol') hcol, hwrites' hwrites⟩

theorem toNat_pred {x : BitVec 8} (h : 0 < x.toNat) : (x - 1).toNat = x.toNat - 1 := by
  have hx := x.isLt
  rw [BitVec.toNat_sub]
  have hone : (1 : BitVec 8).toNat = 1 := rfl
  omega

theorem toNat_next {x : BitVec 8} (h : x.toNat < 255) : (x + 1).toNat = x.toNat + 1 := by
  rw [BitVec.toNat_add]
  have hone : (1 : BitVec 8).toNat = 1 := rfl
  omega

theorem stepBack_screen (h : d.InRange) :
    (stepBack d).screen = d.screen.back ∧ (stepBack d).InRange := by
  have hcol := h.col
  have hrow := h.row
  unfold stepBack Screen.back
  by_cases hc : 0 < d.sys_col.toNat
  · rw [if_pos hc, if_pos (show 0 < d.screen.col from hc)]
    unfold Display.screen
    dsimp only
    rw [toNat_pred hc]
    exact ⟨rfl, h.row, by dsimp only; rw [toNat_pred hc]; omega, h.writes⟩
  · rw [if_neg hc, if_neg (show ¬ 0 < d.screen.col from hc)]
    by_cases hr : 0 < d.sys_row.toNat
    · rw [if_pos hr, if_pos (show 0 < d.screen.row from hr)]
      unfold Display.screen
      dsimp only
      rw [toNat_pred hr]
      have h79 : (79 : BitVec 8).toNat < 80 := by decide
      exact ⟨rfl, by dsimp only; rw [toNat_pred hr]; omega, h79, h.writes⟩
    · rw [if_neg hr, if_neg (show ¬ 0 < d.screen.row from hr)]
      exact ⟨rfl, h⟩

theorem stepOn_screen (h : d.InRange) :
    (stepOn d).screen = d.screen.advance ∧ (stepOn d).sys_row.toNat ≤ 25 ∧
      (stepOn d).sys_col.toNat < 80 ∧ (stepOn d).writes = d.writes := by
  have hcol := h.col
  have hrow := h.row
  have hnext : (d.sys_col + 1).toNat = d.sys_col.toNat + 1 := toNat_next (by omega)
  have hdown : (d.sys_row + 1).toNat = d.sys_row.toNat + 1 := toNat_next (by omega)
  unfold stepOn Screen.advance
  dsimp only
  by_cases hc : d.sys_col.toNat + 1 < 80
  · rw [if_neg (by omega), if_pos (show d.screen.col + 1 < 80 from hc)]
    unfold Display.screen
    dsimp only
    rw [hnext]
    exact ⟨rfl, hrow.le, hc, rfl⟩
  · rw [if_pos (by omega), if_neg (show ¬ d.screen.col + 1 < 80 from hc)]
    unfold Display.screen
    dsimp only
    rw [hdown]
    have hzero : (0 : BitVec 8).toNat < 80 := by decide
    exact ⟨rfl, hrow, hzero, rfl⟩

/-- The loop body of one character presses its key on the screen, with the cell
that the code packs. -/
theorem putc_screen (h : d.InRange) (ch : BitVec 8 × BitVec 8) :
    (putc d ch.1 ch.2).screen = d.screen.press blankCell (charKey (packCell · · 0) ch) ∧
      (putc d ch.1 ch.2).InRange := by
  have hrow := h.row
  unfold putc charKey
  by_cases hback : ch.1 = charBackspace
  · rw [if_pos hback, if_pos hback]
    obtain ⟨hscreen, hin⟩ := stepBack_screen h
    have hwritten := framebufferWrite_inRange hin charSpace ch.2 0
    refine ⟨?_, scroll_inRange hwritten.row.le hwritten.col hwritten.writes⟩
    rw [scroll_screen hwritten.row.le, scroll_of_lt hwritten.row,
      framebufferWrite_screen hin.row hin.col, hscreen]
    rfl
  · rw [if_neg hback, if_neg hback]
    by_cases hnl : ch.1 = charNewline
    · rw [if_pos hnl, if_pos hnl]
      have hnext : (d.sys_row + 1).toNat = d.sys_row.toNat + 1 := toNat_next (by omega)
      have hle : (d.sys_row + 1).toNat ≤ 25 := by omega
      have hzero : (0 : BitVec 8).toNat < 80 := by decide
      refine ⟨?_, scroll_inRange hle hzero h.writes⟩
      rw [scroll_screen hle]
      unfold Display.screen
      dsimp only
      rw [hnext]
      rfl
    · rw [if_neg hnl, if_neg hnl]
      have hwritten := framebufferWrite_inRange h ch.1 ch.2 0
      obtain ⟨hscreen, hle, hcol, hwrites⟩ := stepOn_screen hwritten
      refine ⟨?_, scroll_inRange hle hcol (hwrites ▸ hwritten.writes)⟩
      rw [scroll_screen hle, hscreen, framebufferWrite_screen h.row h.col]
      rfl

/-! ## A run -/

variable {video_memory : ℕ → BitVec 16} {calls : List TerminalCall}

/-- The two registers of the cursor. -/
def cursorAt (d : Display) : BitVec 8 × BitVec 8 :=
  let position : BitVec 16 :=
    BitVec.ofNat 16 (d.sys_row.toNat * framebufferWidth + d.sys_col.toNat)
  ((position >>> 8).setWidth 8, position.setWidth 8)

theorem start_row : (Terminal.start video_memory).sys_row = 0 := rfl

theorem start_col : (Terminal.start video_memory).sys_col = 0 := rfl

theorem run_eq (t : Terminal) (call : TerminalCall) :
    call.run t =
      ⟨putAll t.toDisplay call.chars, cursorAt (putAll t.toDisplay call.chars)⟩ := by
  cases call with
  | putchar ebx ecx => rfl
  | puts str ecx edx =>
      have hloop : (List.range ecx.toNat).foldl (fun d i => putc d (str i) (edx.setWidth 8))
          t.toDisplay = putAll t.toDisplay (TerminalCall.puts str ecx edx).chars := by
        rw [putAll, TerminalCall.chars, List.foldl_map]
      rw [TerminalCall.run, syscallPuts, hloop]
      rfl

theorem putAll_append (d : Display) (chs chs' : List (BitVec 8 × BitVec 8)) :
    putAll d (chs ++ chs') = putAll (putAll d chs) chs' := List.foldl_append

/-- A run writes what its calls write, and the cursor is at the end of it. -/
theorem runTerminal_eq (video_memory : ℕ → BitVec 16) (calls : List TerminalCall) :
    let d := putAll (Terminal.start video_memory).toDisplay (written calls)
    runTerminal (.start video_memory) calls = ⟨d, cursorAt d⟩ := by
  induction calls using List.reverseRecOn with
  | nil =>
      have hcursor : cursorAt (Terminal.start video_memory).toDisplay = (0, 0) := by
        rw [cursorAt, start_row, start_col]
        decide
      exact congrArg (Terminal.mk _) hcursor.symm
  | append_singleton calls call ih =>
      have hwritten : written (calls ++ [call]) = written calls ++ call.chars := by
        simp [written]
      rw [runTerminal, List.foldl_append, List.foldl_cons, List.foldl_nil,
        ← runTerminal, ih, run_eq, hwritten, putAll_append]

theorem putAll_shows {d : Display} (hin : d.InRange) {p : Page (BitVec 16)}
    (hshows : Shows d.screen p) (chs : List (BitVec 8 × BitVec 8)) :
    (putAll d chs).InRange ∧ Shows (putAll d chs).screen
      (p.pressAll 25 80 blankCell (chs.map (charKey (packCell · · 0)))) := by
  induction chs generalizing d p with
  | nil => exact ⟨hin, hshows⟩
  | cons ch chs ih =>
      obtain ⟨hscreen, hin'⟩ := putc_screen hin ch
      exact ih hin' (hscreen ▸ hshows.press _)

theorem start_inRange (video_memory : ℕ → BitVec 16) :
    (Terminal.start video_memory).InRange where
  row := by rw [start_row]; decide
  col := by rw [start_col]; decide
  writes := fun _ hw => absurd hw List.not_mem_nil

theorem start_shows (video_memory : ℕ → BitVec 16) :
    Shows (Terminal.start video_memory).screen (startPage video_memory) where
  row_le := (start_inRange video_memory).row.le
  col_lt := (start_inRange video_memory).col
  row_eq := rfl
  col_eq := rfl
  row_lt := (start_inRange video_memory).row
  cells := by
    intro r c
    change video_memory (r.val * 80 + c.val) =
      if 0 + r.val < 25 then video_memory ((0 + r.val) * 80 + c.val) else blankCell
    rw [Nat.zero_add, if_pos r.isLt]

/-- In the middle of a call the display is that of the characters so far. -/
theorem displayAfter_eq (before : List TerminalCall) (call : TerminalCall) (n : ℕ) :
    call.displayAfter (runTerminal (.start video_memory) before) n =
      putAll (Terminal.start video_memory).toDisplay (written before ++ call.chars.take n) := by
  rw [TerminalCall.displayAfter, runTerminal_eq, putAll_append]

/-- The bytes that `framebuffer_write` can store under their own color. -/
def SevenBit (calls : List TerminalCall) : Prop := ∀ ch ∈ written calls, ch.1.toNat < 0x80

/-- A display that shows the page before and after a character has packed the
cell of the character. -/
theorem sevenBit_of_shows {d : Display} (hin : d.InRange) {p : Page (BitVec 16)}
    {ch : BitVec 8 × BitVec 8} (hbefore : Shows d.screen p)
    (hafter : Shows (putc d ch.1 ch.2).screen
      (p.press 25 80 blankCell (charKey charCell ch))) : ch.1.toNat < 0x80 := by
  by_contra hhigh
  rw [(putc_screen hin ch).1] at hafter
  have hcells := hafter.cell_eq (hbefore.press (charKey charCell ch))
  have hback : ch.1 ≠ charBackspace := fun h => hhigh (h ▸ by decide)
  have hnl : ch.1 ≠ charNewline := fun h => hhigh (h ▸ by decide)
  unfold charKey at hcells
  rw [if_neg hback, if_neg hnl, if_neg hback, if_neg hnl] at hcells
  exact packCell_ne hhigh ch.2 (press_glyph_inj (by decide) hin.row hin.col hcells)

/-- **What the terminal displays** on every screen and in every run of the two
system calls: the window of the page, exactly when all bytes are below `0x80`. -/
theorem displays_written_iff (video_memory : ℕ → BitVec 16) (calls : List TerminalCall) :
    DisplaysWritten video_memory calls ↔ SevenBit calls := by
  constructor
  · intro h ch hch
    obtain ⟨call, hcall, hch⟩ := List.mem_flatMap.mp hch
    obtain ⟨before, after, hsplit⟩ := List.append_of_mem hcall
    obtain ⟨n, hn, rfl⟩ := List.getElem_of_mem hch
    have hbefore := h.shows before call after n hsplit hn.le
    have hafter := h.shows before call after (n + 1) hsplit hn
    have hin := h.in_range before call after n hsplit hn.le
    rw [displayAfter_eq] at hbefore hafter hin
    rw [← List.take_append_getElem hn, ← List.append_assoc, putAll_append, pageAfter,
      List.map_append, Page.pressAll, List.foldl_append] at hafter
    exact sevenBit_of_shows hin hbefore hafter
  · intro hseven
    refine ⟨?_, ?_, ?_⟩
    · intro before call after n _ _
      rw [displayAfter_eq]
      exact (putAll_shows (start_inRange _) (start_shows _) _).1
    · intro before call after n hsplit _
      rw [displayAfter_eq]
      have hshows := (putAll_shows (start_inRange _) (start_shows video_memory)
        (written before ++ call.chars.take n)).2
      have hkeys : (written before ++ call.chars.take n).map (charKey (packCell · · 0)) =
          (written before ++ call.chars.take n).map (charKey charCell) := by
        refine List.map_congr_left fun ch hch => charKey_packCell (hseven ch ?_)
        rw [hsplit, written, List.flatMap_append, List.flatMap_cons]
        rcases List.mem_append.mp hch with hch | hch
        · exact List.mem_append_left _ hch
        · exact List.mem_append_right _ (List.mem_append_left _ (List.mem_of_mem_take hch))
      rw [hkeys] at hshows
      exact hshows
    · intro calls' hsame
      rw [runTerminal_eq, runTerminal_eq, hsame]

/-- The byte `0x80` in light gray: its sign bits are the attribute, white on
white. -/
theorem high_byte_loses_color :
    let calls := [TerminalCall.putchar 0x80 0x07]
    (runTerminal (.start fun _ => 0x0720) calls).video_memory 0 = 0xFF80 ∧
    (pageAfter (fun _ => 0x0720) (written calls)).cell 0 0 = 0x0780 ∧
    ¬ DisplaysWritten (fun _ => 0x0720) calls := by
  refine ⟨by decide, by decide, fun h => ?_⟩
  have hafter := h.shows [] (.putchar 0x80 0x07) [] 1 rfl le_rfl
  exact absurd (hafter.cells 0 0) (by decide)

end RendangOS.Driver
