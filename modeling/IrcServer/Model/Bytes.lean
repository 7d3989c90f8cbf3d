import Mathlib.Algebra.Group.Int.Defs
import Mathlib.Algebra.Group.Nat.Defs
import Mathlib.Data.List.Basic
import Mathlib.Tactic.Common

/-! # Byte strings

`std::string` is a list of bytes. The character classes are those of `<cctype>`
in the "C" locale, which the program never changes, and `atoi` is the one of the
GNU C library.
-/

namespace IrcServer

/-- `std::string`: any bytes, NUL included. -/
abbrev Bytes := List UInt8

def text (literal : String) : Bytes := literal.toByteArray.data.toList

def LF : UInt8 := 10
def CR : UInt8 := 13
def space : UInt8 := 32
def tab : UInt8 := 9
def colon : UInt8 := 58
def comma : UInt8 := 44
def hash : UInt8 := 35
def hyphen : UInt8 := 45

def crlf : Bytes := [CR, LF]

/-! ## `<cctype>` -/

def isUpper (c : UInt8) : Bool := 65 ≤ c && c ≤ 90
def isLower (c : UInt8) : Bool := 97 ≤ c && c ≤ 122
def isDigit (c : UInt8) : Bool := 48 ≤ c && c ≤ 57
def isAlpha (c : UInt8) : Bool := isUpper c || isLower c
def isAlnum (c : UInt8) : Bool := isAlpha c || isDigit c
/-- Space, or one of the control characters from tab to carriage return. -/
def isSpace (c : UInt8) : Bool := c == 32 || (9 ≤ c && c ≤ 13)

def toUpper (c : UInt8) : UInt8 := if isLower c then c - 32 else c

/-! ## `atoi` -/

def digitsValue : Nat → Bytes → Nat
  | value, [] => value
  | value, c :: rest =>
      if isDigit c then digitsValue (10 * value + (c.toNat - 48)) rest else value

/-- `strtol` in base ten: white space, an optional sign, digits; the result saturates at the
ends of the 64-bit `long`. -/
def strtol (s : Bytes) : Int :=
  match s.dropWhile isSpace with
  | [] => 0
  | c :: rest =>
      if c = hyphen then max (-(2 ^ 63)) (-(digitsValue 0 rest : Int))
      else if c = 43 then min (2 ^ 63 - 1) (digitsValue 0 rest : Int)
      else min (2 ^ 63 - 1) (digitsValue 0 (c :: rest) : Int)

/-- Conversion of an integer to the 32-bit `int`, modulo `2 ^ 32`. -/
def toInt32 (n : Int) : Int := n.bmod (2 ^ 32)

def atoi (s : Bytes) : Int := toInt32 (strtol s)

example : atoi (text "42") = 42 ∧ atoi (text "4294967297") = 1 := by decide

/-! ## Line terminators -/

@[simp] theorem toUpper_eq_LF (c : UInt8) : toUpper c = LF ↔ c = LF := by
  grind [toUpper, isLower, LF]

theorem LF_not_mem_map_toUpper {s : Bytes} (h : LF ∉ s) : LF ∉ s.map toUpper := by
  intro hmem
  obtain ⟨c, hc, heq⟩ := List.mem_map.mp hmem
  exact h ((toUpper_eq_LF c).mp heq ▸ hc)

end IrcServer
