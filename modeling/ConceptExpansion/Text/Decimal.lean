/-
# Unsigned decimal numerals

Reading a run of decimal digits as a number. A numeral has at least one digit;
leading zeros change nothing.
-/

namespace ConceptExpansion.Text

/-- The value of an ASCII digit. -/
def digit? (c : Char) : Option Nat :=
  if c.isDigit then some (c.toNat - '0'.toNat) else none

/-- The number that the digits spell when they continue a numeral of value
`value`. -/
def digitsFrom? (value : Nat) : List Char → Option Nat
  | [] => some value
  | c :: rest =>
    match digit? c with
    | some d => digitsFrom? (10 * value + d) rest
    | none => none

/-- The number that a nonempty run of ASCII digits spells. -/
def numeral? : List Char → Option Nat
  | [] => none
  | digits => digitsFrom? 0 digits

example : numeral? ['0', '4', '2'] = some 42 := by decide

end ConceptExpansion.Text
