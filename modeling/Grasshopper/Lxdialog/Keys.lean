import Mathlib.Data.Int.Notation
import Mathlib.Data.Nat.Notation

/-! # Keys and bounds of `lxdialog/dialog.h`

Keys are what `wgetch` returns: characters, and the codes that `curses.h` gives the other keys.
-/

namespace Grasshopper.Lxdialog

def ESC : ℤ := 27
def TAB : ℤ := 9
def KEY_DOWN : ℤ := 0o402
def KEY_UP : ℤ := 0o403
def KEY_LEFT : ℤ := 0o404
def KEY_RIGHT : ℤ := 0o405
def KEY_BACKSPACE : ℤ := 0o407
def KEY_NPAGE : ℤ := 0o522
def KEY_PPAGE : ℤ := 0o523

def MAX_LEN : ℕ := 2048

/-- The key of a `case` label. -/
def keyOf (c : Char) : ℤ := c.toNat

/-! ## Character classes, in the locale that a program starts with -/

def isprint (key : ℤ) : Bool := decide (32 ≤ key ∧ key < 127)

def isalpha (key : ℤ) : Bool := decide (65 ≤ key ∧ key ≤ 90 ∨ 97 ≤ key ∧ key ≤ 122)

def tolower (key : ℤ) : ℤ := if 65 ≤ key ∧ key ≤ 90 then key + 32 else key

end Grasshopper.Lxdialog
