import Mathlib.Data.List.Range
import Mathlib.Logic.Function.Basic
import Mathlib.Tactic.Common

/-!
# Ring buffers

`n` cells used as a queue: items enter at `head` and leave at `tail`, and both
indices wrap around at `n`. The cell at `head` is never in use, so equal indices
mean an empty queue and `n - 1` items a full one.
-/

namespace Ring

variable {α : Type*} {n head tail : ℕ}

/-- The index behind `i`. -/
def next (n i : ℕ) : ℕ := (i + 1) % n

/-- The number of items. -/
def count (n head tail : ℕ) : ℕ := (head + n - tail) % n

/-- The items, the oldest first. -/
def contents (n : ℕ) (cell : ℕ → α) (head tail : ℕ) : List α :=
  (List.range (count n head tail)).map fun k => cell ((tail + k) % n)

/-! ## Indices -/

theorem mod_wrap {x : ℕ} (h : x < 2 * n) : x % n = if x < n then x else x - n := by
  split
  · next hlt => exact Nat.mod_eq_of_lt hlt
  · next hge =>
      rw [Nat.mod_eq_sub_mod (by omega)]
      exact Nat.mod_eq_of_lt (by omega)

theorem next_eq {i : ℕ} (h : i < n) : next n i = if i + 1 = n then 0 else i + 1 := by
  rw [next, mod_wrap (by omega)]
  split <;> split <;> omega

theorem next_lt {i : ℕ} (h : i < n) : next n i < n := Nat.mod_lt _ (by omega)

theorem count_eq (hh : head < n) (ht : tail < n) :
    count n head tail = if tail ≤ head then head - tail else head + n - tail := by
  rw [count, mod_wrap (by omega)]
  split <;> split <;> omega

theorem count_lt (hh : head < n) : count n head tail < n := Nat.mod_lt _ (by omega)

theorem length_contents (cell : ℕ → α) :
    (contents n cell head tail).length = count n head tail := by
  rw [contents, List.length_map, List.length_range]

theorem contents_eq_nil (cell : ℕ → α) (hh : head < n) (ht : tail < n) :
    contents n cell head tail = [] ↔ head = tail := by
  rw [← List.length_eq_zero_iff, length_contents, count_eq hh ht]
  split <;> omega

/-- The test for a full queue. -/
theorem next_eq_tail (hh : head < n) (ht : tail < n) :
    next n head = tail ↔ count n head tail = n - 1 := by
  rw [next_eq hh, count_eq hh ht]
  split <;> split <;> omega

/-! ## The two operations -/

/-- An item enters a queue that is not full. -/
theorem contents_push (cell : ℕ → α) (a : α) (hh : head < n) (ht : tail < n)
    (hroom : next n head ≠ tail) :
    contents n (Function.update cell head a) (next n head) tail =
      contents n cell head tail ++ [a] := by
  have hcount : count n (next n head) tail = count n head tail + 1 := by
    have hnext := next_eq hh
    rw [count_eq (next_lt hh) ht, count_eq hh ht]
    split at hnext <;> split <;> split <;> omega
  have hlt := next_lt hh
  have hless : count n head tail + 1 < n := by
    rw [← hcount]
    exact count_lt hlt
  have heq := count_eq hh ht
  unfold contents
  rw [hcount, List.range_succ, List.map_append, List.map_singleton]
  congr 1
  · apply List.map_congr_left
    intro k hk
    rw [List.mem_range] at hk
    -- the cells in use come before `head`
    apply Function.update_of_ne
    rw [mod_wrap (by omega)]
    split at heq <;> split <;> omega
  · have hcell : (tail + count n head tail) % n = head := by
      rw [mod_wrap (by omega)]
      split at heq <;> split <;> omega
    rw [hcell, Function.update_self]

/-- The oldest item leaves. -/
theorem contents_pop (cell : ℕ → α) (hh : head < n) (ht : tail < n) (hne : head ≠ tail) :
    contents n cell head tail = cell tail :: contents n cell head (next n tail) := by
  have hcount : count n head tail = count n head (next n tail) + 1 := by
    have hnext := next_eq ht
    rw [count_eq hh (next_lt ht), count_eq hh ht]
    split at hnext <;> split <;> split <;> omega
  have hless : count n head tail < n := count_lt hh
  unfold contents
  rw [hcount, List.range_succ_eq_map, List.map_cons, List.map_map, Nat.add_zero,
    Nat.mod_eq_of_lt ht]
  congr 1
  apply List.map_congr_left
  intro k hk
  rw [List.mem_range] at hk
  have hnext := next_eq ht
  have hlt := next_lt ht
  rw [Function.comp_apply, mod_wrap (by omega), mod_wrap (by omega)]
  split at hnext <;> split <;> split <;> first | omega | exact congrArg cell (by omega)

end Ring
