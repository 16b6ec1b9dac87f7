/-
# Whole numbers in decimal digits

A whole number is written as at least one digit, on demand with a plus sign and with leading zeros.
The digits are looked at from left to right, so that of several faults the first one is found.
-/
import TypedHypergraph.Handle

namespace TypedHypergraph.Decimal

/-- Why a text is no whole number up to a bound. -/
inductive DigitsFault
  | empty
  | invalidDigit
  | tooLarge
  deriving DecidableEq, Repr

/-- What is wrong with the digits, in words. -/
def DigitsFault.message : DigitsFault → String
  | empty => "cannot parse integer from empty string"
  | invalidDigit => "invalid digit found in string"
  | tooLarge => "number too large to fit in target type"

/-- Read on with the digits behind some whose number is known. -/
def readDigits (most : Nat) : Nat → List Char → Except DigitsFault Nat
  | n, [] => .ok n
  | n, c :: rest =>
    if c.isDigit then
      let n := n * 10 + (c.toNat - '0'.toNat)
      if most < n then .error .tooLarge else readDigits most n rest
    else .error .invalidDigit

/-- The whole number up to a bound that a text stands for. -/
def readUnsigned (most : Nat) (s : String) : Except DigitsFault Nat :=
  match s.toList with
  | [] => .error .empty
  | ['+'] => .error .invalidDigit
  | '+' :: digits => readDigits most 0 digits
  | digits => readDigits most 0 digits

end TypedHypergraph.Decimal
