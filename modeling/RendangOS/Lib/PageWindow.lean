import Mathlib.Tactic.Common
import Mathlib.Tactic.SplitIfs

/-!
# A window on an unbounded page

A page has `width` columns and grows by one row of blanks whenever its cursor
moves below the last row. A screen of `height` rows has no more than its own
cells: it moves them up by one row instead. The screen shows the last `height`
rows of the page, whatever keys are pressed.
-/

namespace PageWindow

/-- What a character does at the cursor: it leaves a cell and moves on, it
starts the next row, or it steps back and leaves a cell there. -/
inductive Key (α : Type*) where
  | glyph (a : α)
  | newline
  | erase (a : α)

/-! ## The page -/

/-- The rows from `top` on are the window. -/
structure Page (α : Type*) where
  cell : ℕ → ℕ → α
  top : ℕ
  row : ℕ
  col : ℕ

namespace Page

variable {α : Type*} (height width : ℕ) (blank : α) (p : Page α)

def store (a : α) : Page α :=
  { p with cell := fun r c => if r = p.row ∧ c = p.col then a else p.cell r c }

def advance : Page α :=
  if p.col + 1 < width then { p with col := p.col + 1 }
  else { p with row := p.row + 1, col := 0 }

def newline : Page α := { p with row := p.row + 1, col := 0 }

/-- One cell back, but not out of the window. -/
def back : Page α :=
  if 0 < p.col then { p with col := p.col - 1 }
  else if p.top < p.row then { p with row := p.row - 1, col := width - 1 }
  else p

/-- The row of the cursor is on the page, as a row of blanks if it is new. -/
def reveal : Page α :=
  if p.row < p.top + height then p
  else
    { p with
      cell := fun r c => if r = p.row then blank else p.cell r c
      top := p.row + 1 - height }

def press : Key α → Page α
  | .glyph a => ((p.store a).advance width).reveal height blank
  | .newline => p.newline.reveal height blank
  | .erase a => (p.back width).store a

def pressAll (ks : List (Key α)) : Page α := ks.foldl (fun p k => p.press height width blank k) p

end Page

/-! ## The screen -/

structure Screen (α : Type*) (height width : ℕ) where
  cell : Fin height → Fin width → α
  row : ℕ
  col : ℕ

namespace Screen

variable {α : Type*} {height width : ℕ} (blank : α) (s : Screen α height width)

def store (a : α) : Screen α height width :=
  { s with cell := fun r c => if r.val = s.row ∧ c.val = s.col then a else s.cell r c }

def advance : Screen α height width :=
  if s.col + 1 < width then { s with col := s.col + 1 }
  else { s with row := s.row + 1, col := 0 }

def newline : Screen α height width := { s with row := s.row + 1, col := 0 }

def back : Screen α height width :=
  if 0 < s.col then { s with col := s.col - 1 }
  else if 0 < s.row then { s with row := s.row - 1, col := width - 1 }
  else s

/-- The rows move up by one when the cursor is below the last one. -/
def scroll : Screen α height width :=
  if s.row < height then s
  else
    { s with
      cell := fun r c => if h : r.val + 1 < height then s.cell ⟨r.val + 1, h⟩ c else blank
      row := height - 1 }

def press : Key α → Screen α height width
  | .glyph a => (s.store a).advance.scroll blank
  | .newline => s.newline.scroll blank
  | .erase a => s.back.store a

end Screen

/-! ## The window -/

variable {α : Type*} {height width : ℕ} {blank : α} {s : Screen α height width} {p : Page α}

/-- The screen holds the window of the page; the cursor may be one row below. -/
structure Follows (s : Screen α height width) (p : Page α) : Prop where
  row_le : s.row ≤ height
  col_lt : s.col < width
  row_eq : p.row = p.top + s.row
  col_eq : p.col = s.col
  cells : ∀ r c, s.cell r c = p.cell (p.top + r.val) c.val

/-- The screen holds the window of the page, and the cursor is in it. -/
structure Shows (s : Screen α height width) (p : Page α) : Prop extends Follows s p where
  row_lt : s.row < height

theorem Follows.scroll (h : Follows s p) (hheight : 0 < height) :
    Shows (s.scroll blank) (p.reveal height blank) := by
  obtain ⟨hle, hcol, hrow, hpcol, hcells⟩ := h
  unfold Screen.scroll Page.reveal
  by_cases hlt : s.row < height
  · rw [if_pos hlt, if_pos (by omega)]
    exact ⟨⟨hle, hcol, hrow, hpcol, hcells⟩, hlt⟩
  · have hbelow : s.row = height := by omega
    rw [if_neg hlt, if_neg (by omega)]
    refine ⟨⟨Nat.sub_le .., hcol, ?_, hpcol, ?_⟩, Nat.sub_lt hheight Nat.one_pos⟩
    · change p.row = p.row + 1 - height + (height - 1)
      omega
    · intro r c
      have hr := r.isLt
      change (if h : r.val + 1 < height then s.cell ⟨r.val + 1, h⟩ c else blank) =
        if p.row + 1 - height + r.val = p.row then blank else
          p.cell (p.row + 1 - height + r.val) c.val
      by_cases hin : r.val + 1 < height
      · have hrow' : p.row + 1 - height + r.val = p.top + (r.val + 1) := by omega
        rw [dif_pos hin, if_neg (by omega), hcells, hrow']
      · rw [dif_neg hin, if_pos (by omega)]

namespace Shows

theorem store (h : Shows s p) (a : α) : Shows (s.store a) (p.store a) := by
  refine ⟨⟨h.row_le, h.col_lt, h.row_eq, h.col_eq, fun r c => ?_⟩, h.row_lt⟩
  have hrow := h.row_eq
  change (if r.val = s.row ∧ c.val = s.col then a else s.cell r c) =
    if p.top + r.val = p.row ∧ c.val = p.col then a else p.cell (p.top + r.val) c.val
  have hsame : p.top + r.val = p.row ↔ r.val = s.row := by omega
  simp only [hsame, h.col_eq, h.cells r c]

theorem back (h : Shows s p) : Shows s.back (p.back width) := by
  obtain ⟨⟨hle, hcol, hrow, hpcol, hcells⟩, hlt⟩ := h
  have htop : p.top < p.row ↔ 0 < s.row := by omega
  simp only [Screen.back, Page.back, hpcol, htop]
  split
  · exact ⟨⟨hle, by change s.col - 1 < width; omega, hrow, rfl, hcells⟩, hlt⟩
  · split
    · refine ⟨⟨?_, ?_, ?_, rfl, hcells⟩, ?_⟩
      · exact Nat.le_trans (Nat.sub_le ..) hle
      · exact Nat.sub_lt (by omega) Nat.one_pos
      · change p.row - 1 = p.top + (s.row - 1)
        omega
      · exact Nat.lt_of_le_of_lt (Nat.sub_le ..) hlt
    · exact ⟨⟨hle, hcol, hrow, hpcol, hcells⟩, hlt⟩

theorem newline (h : Shows s p) : Follows s.newline p.newline where
  row_le := h.row_lt
  col_lt := Nat.zero_lt_of_lt h.col_lt
  row_eq := by
    change p.row + 1 = p.top + (s.row + 1)
    rw [h.row_eq, Nat.add_assoc]
  col_eq := rfl
  cells := h.cells

theorem advance (h : Shows s p) : Follows s.advance (p.advance width) := by
  simp only [Screen.advance, Page.advance, h.col_eq]
  split
  · next hroom => exact ⟨h.row_le, hroom, h.row_eq, rfl, h.cells⟩
  · exact h.newline

/-- One key. -/
theorem press (h : Shows s p) (k : Key α) :
    Shows (s.press blank k) (p.press height width blank k) := by
  have hheight : 0 < height := Nat.zero_lt_of_lt h.row_lt
  cases k with
  | glyph a => exact (h.store a).advance.scroll hheight
  | newline => exact h.newline.scroll hheight
  | erase a => exact h.back.store a

/-- The page determines the cells of the screen. -/
theorem cell_eq {s' : Screen α height width} (h : Shows s p) (h' : Shows s' p) :
    s.cell = s'.cell := by
  ext r c
  rw [h.cells, h'.cells]

end Shows

/-! ## The last glyph -/

theorem advance_cell (s : Screen α height width) : s.advance.cell = s.cell := by
  unfold Screen.advance
  split <;> rfl

theorem advance_row (s : Screen α height width) :
    s.advance.row = if s.col + 1 < width then s.row else s.row + 1 := by
  unfold Screen.advance
  split <;> rfl

theorem scroll_of_lt (hlt : s.row < height) : s.scroll blank = s := if_pos hlt

theorem scroll_cell_up (hlt : ¬ s.row < height) (r : Fin height) (hr : r.val + 1 < height)
    (c : Fin width) : (s.scroll blank).cell r c = s.cell ⟨r.val + 1, hr⟩ c := by
  rw [Screen.scroll, if_neg hlt]
  exact dif_pos hr

/-- A glyph is still on the screen that it leaves, in the row above when the
screen has scrolled. -/
theorem exists_glyph_cell (blank : α) (hheight : 1 < height) (hrow : s.row < height)
    (hcol : s.col < width) :
    ∃ r : Fin height, ∀ a : α, (s.press blank (.glyph a)).cell r ⟨s.col, hcol⟩ = a := by
  have hstore : ∀ a : α, (s.store a).advance.cell ⟨s.row, hrow⟩ ⟨s.col, hcol⟩ = a := by
    intro a
    rw [advance_cell]
    exact if_pos ⟨rfl, rfl⟩
  have hbelow : ∀ a : α, (s.store a).advance.row = s.advance.row := by
    intro a
    rw [advance_row, advance_row]
    rfl
  by_cases hlt : s.advance.row < height
  · refine ⟨⟨s.row, hrow⟩, fun a => ?_⟩
    rw [Screen.press, scroll_of_lt (by rw [hbelow]; exact hlt)]
    exact hstore a
  · have hlast : s.row + 1 = height := by
      rw [advance_row] at hlt
      split at hlt <;> omega
    refine ⟨⟨s.row - 1, by omega⟩, fun a => ?_⟩
    have hup' : s.row - 1 + 1 < height := by omega
    rw [Screen.press, scroll_cell_up (by rw [hbelow]; exact hlt) _ hup']
    have hup : (⟨s.row - 1 + 1, hup'⟩ : Fin height) = ⟨s.row, hrow⟩ := by
      ext
      exact Nat.sub_add_cancel (by omega)
    exact (congrArg (fun r => (s.store a).advance.cell r ⟨s.col, hcol⟩) hup).trans (hstore a)

/-- The screen tells glyphs apart. -/
theorem press_glyph_inj {a b : α} (hheight : 1 < height) (hrow : s.row < height)
    (hcol : s.col < width)
    (h : (s.press blank (.glyph a)).cell = (s.press blank (.glyph b)).cell) : a = b := by
  obtain ⟨r, hr⟩ := exists_glyph_cell blank hheight hrow hcol
  rw [← hr a, ← hr b, h]

end PageWindow
