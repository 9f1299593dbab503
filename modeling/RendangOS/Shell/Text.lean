import Mathlib.Data.List.TakeWhile
import Mathlib.Data.BitVec
import Mathlib.Tactic.Common

/-!
# Strings

The string functions of the shell stop at the first zero byte. A string is the
list of the bytes in front of it.
-/

namespace RendangOS.Shell

/-- The characters of a string, in front of its terminator. -/
abbrev Text := List (BitVec 8)

/-- The string that starts with these bytes. -/
def cString (bytes : List (BitVec 8)) : Text := bytes.takeWhile (· ≠ 0)

/-- `"/"`. -/
def slash : Text := [0x2F]

def space : BitVec 8 := 0x20
def newline : BitVec 8 := 0x0A
def backspace : BitVec 8 := 0x08
def carriageReturn : BitVec 8 := 0x0D
def verticalBar : BitVec 8 := 0x7C

theorem cString_of_no_zero {bytes : List (BitVec 8)} (h : (0 : BitVec 8) ∉ bytes) :
    cString bytes = bytes := by
  apply List.takeWhile_eq_self_iff.mpr
  intro c hc
  apply decide_eq_true
  rintro rfl
  exact h hc

end RendangOS.Shell
