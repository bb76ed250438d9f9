/-
Decimal numerals of natural numbers below a bound.

A numeral is an optional plus sign and at least one digit, leading zeros allowed.
The characters are taken in order: one that is not a digit is reported before a
number that has become too large, unless the number had become so already.

* `parseNumeral` — the number of a numeral.
-/

namespace Postings.Text

/-- Why a text is not the numeral of a number below the bound. -/
inductive NumeralFault where
  | empty
  | invalidDigit
  | tooLarge
  deriving DecidableEq, Repr

/-- The wording of a fault. -/
def NumeralFault.message : NumeralFault → String
  | empty => "cannot parse integer from empty string"
  | invalidDigit => "invalid digit found in string"
  | tooLarge => "number too large to fit in target type"

/-- The number of digits that follow those of `value`. -/
def parseDigits (bound value : Nat) : List Char → Except NumeralFault Nat
  | [] => .ok value
  | c :: rest =>
    if c.isDigit then
      let value := 10 * value + (c.toNat - '0'.toNat)
      if value < bound then parseDigits bound value rest else .error .tooLarge
    else .error .invalidDigit

/-- The number of a numeral, below `bound`. -/
def parseNumeral (bound : Nat) (text : String) : Except NumeralFault Nat :=
  match text.toList with
  | [] => .error .empty
  | ['+'] => .error .invalidDigit
  | '+' :: digits => parseDigits bound 0 digits
  | digits => parseDigits bound 0 digits

end Postings.Text
