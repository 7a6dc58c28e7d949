/-
# Reading JSON texts

A text is read strictly: one tree, with blanks around it and around every token,
and nothing after it. Reading goes over a list of characters; each function
takes what it reads off the front and hands on the rest.

Strings take some care. Escapes can name UTF-16 code units, so a string is first
taken apart into pieces, which are characters and surrogate units, and the pieces
spell a text when every surrogate unit belongs to a pair.
-/

import ConceptExpansion.Json.Basic

namespace ConceptExpansion.Json

/-- The blanks of JSON: space, tab and the two ends of a line. -/
def isBlank (c : Char) : Bool :=
  c = ' ' || c = '\t' || c = '\n' || c = '\r'

/-- What follows the blanks. -/
def skipBlanks (text : List Char) : List Char :=
  text.dropWhile isBlank

/-! ## Strings -/

/-- A piece of a string. -/
inductive Piece where
  /-- A character. -/
  | char (c : Char)
  /-- A surrogate unit. -/
  | surrogate (unit : Nat)

/-- The value of a hexadecimal digit in either case. -/
def hexDigit? (c : Char) : Option Nat :=
  if '0' ≤ c ∧ c ≤ '9' then some (c.toNat - '0'.toNat)
  else if 'a' ≤ c ∧ c ≤ 'f' then some (c.toNat - 'a'.toNat + 10)
  else if 'A' ≤ c ∧ c ≤ 'F' then some (c.toNat - 'A'.toNat + 10)
  else none

/-- The number that four hexadecimal digits spell. -/
def unit? (a b c d : Char) : Option Nat := do
  return ((← hexDigit? a) * 16 + (← hexDigit? b)) * 256 + (← hexDigit? c) * 16 + (← hexDigit? d)

/-- The piece for a UTF-16 code unit. -/
def Piece.ofUnit (unit : Nat) : Piece :=
  if 0xd800 ≤ unit ∧ unit < 0xe000 then .surrogate unit else .char (.ofNat unit)

/-- The character that a backslash and a letter stand for. -/
def escaped? : Char → Option Char
  | '"' => some '"'
  | '\\' => some '\\'
  | '/' => some '/'
  | 'b' => some '\x08'
  | 'f' => some '\x0c'
  | 'n' => some '\n'
  | 'r' => some '\r'
  | 't' => some '\t'
  | _ => none

/-- The pieces of a string up to its closing quote. Characters below the blank
have to be escaped. -/
def readPieces : List Char → Option (List Piece × List Char)
  | [] => none
  | '"' :: rest => some ([], rest)
  | '\\' :: 'u' :: a :: b :: c :: d :: rest => do
    let unit ← unit? a b c d
    let (pieces, rest) ← readPieces rest
    return (.ofUnit unit :: pieces, rest)
  | '\\' :: letter :: rest => do
    let c ← escaped? letter
    let (pieces, rest) ← readPieces rest
    return (.char c :: pieces, rest)
  | c :: rest =>
    if c.toNat < 0x20 ∨ c = '\\' then none
    else do
      let (pieces, rest) ← readPieces rest
      return (.char c :: pieces, rest)

/-- Whether the unit is the first half of a surrogate pair. -/
def isHigh (unit : Nat) : Bool :=
  0xd800 ≤ unit && unit < 0xdc00

/-- Whether the unit is the second half of a surrogate pair. -/
def isLow (unit : Nat) : Bool :=
  0xdc00 ≤ unit && unit < 0xe000

/-- The text that the pieces spell, if every surrogate unit belongs to a pair. -/
def spell : List Piece → Option (List Char)
  | [] => some []
  | .char c :: rest => (spell rest).map (c :: ·)
  | .surrogate high :: .surrogate low :: rest =>
    if isHigh high && isLow low then
      (spell rest).map (Char.ofNat (0x10000 + (high - 0xd800) * 0x400 + (low - 0xdc00)) :: ·)
    else none
  | .surrogate _ :: _ => none

/-- A string after its opening quote. -/
def readString (text : List Char) : Option (Option String × List Char) :=
  (readPieces text).map fun (pieces, rest) => ((spell pieces).map String.ofList, rest)

/-! ## Numbers -/

/-- A fraction with its point, or nothing if the text does not start with one. -/
def readFraction : List Char → Option (List Char × List Char)
  | '.' :: rest =>
    match rest.takeWhile Char.isDigit with
    | [] => none
    | digits => some ('.' :: digits, rest.dropWhile Char.isDigit)
  | rest => some ([], rest)

/-- The sign of an exponent, if there is one. -/
def readSign : List Char → List Char × List Char
  | '+' :: rest => (['+'], rest)
  | '-' :: rest => (['-'], rest)
  | rest => ([], rest)

/-- An exponent with its mark, or nothing if the text does not start with one. -/
def readExponent : List Char → Option (List Char × List Char)
  | [] => some ([], [])
  | mark :: rest =>
    if mark = 'e' ∨ mark = 'E' then
      let (sign, rest) := readSign rest
      match rest.takeWhile Char.isDigit with
      | [] => none
      | digits => some (mark :: (sign ++ digits), rest.dropWhile Char.isDigit)
    else some ([], mark :: rest)

/-- A number after its sign. The integer part has no leading zero. -/
def readMagnitude (negative : Bool) (text : List Char) : Option (JsonNumber × List Char) := do
  let digits := text.takeWhile Char.isDigit
  let magnitude ← Text.numeral? digits
  if 1 < digits.length ∧ digits.head? = some '0' then none
  else
    let (fraction, rest) ← readFraction (text.dropWhile Char.isDigit)
    let (exponent, rest) ← readExponent rest
    match fraction ++ exponent with
    | [] => return (.integer negative magnitude, rest)
    | tail =>
      let sign := if negative then ['-'] else []
      return (.decimal (String.ofList (sign ++ digits ++ tail)), rest)

/-- A number. -/
def readNumber : List Char → Option (JsonNumber × List Char)
  | '-' :: rest => readMagnitude true rest
  | text => readMagnitude false text

/-! ## Trees -/

mutual

/-- A tree. The first argument bounds the number of nested steps. -/
def readTree : Nat → List Char → Option (Json × List Char)
  | 0, _ => none
  | steps + 1, text =>
    match skipBlanks text with
    | 'n' :: 'u' :: 'l' :: 'l' :: rest => some (.null, rest)
    | 't' :: 'r' :: 'u' :: 'e' :: rest => some (.bool true, rest)
    | 'f' :: 'a' :: 'l' :: 's' :: 'e' :: rest => some (.bool false, rest)
    | '"' :: rest => (readString rest).map fun (s, rest) => (.string s, rest)
    | '[' :: rest =>
      match skipBlanks rest with
      | ']' :: rest => some (.array [], rest)
      | _ => (readItems steps rest).map fun (items, rest) => (.array items, rest)
    | '\x7b' :: rest =>
      match skipBlanks rest with
      | '\x7d' :: rest => some (.object [], rest)
      | _ => (readMembers steps rest).map fun (members, rest) => (.object members, rest)
    | text => (readNumber text).map fun (n, rest) => (.number n, rest)

/-- The items of an array, at least one, up to its end. -/
def readItems : Nat → List Char → Option (List Json × List Char)
  | 0, _ => none
  | steps + 1, text => do
    let (item, rest) ← readTree steps text
    match skipBlanks rest with
    | ',' :: rest =>
      let (items, rest) ← readItems steps rest
      return (item :: items, rest)
    | ']' :: rest => return ([item], rest)
    | _ => none

/-- The members of an object, at least one, up to its end. -/
def readMembers : Nat → List Char → Option (List (Option String × Json) × List Char)
  | 0, _ => none
  | steps + 1, text =>
    match skipBlanks text with
    | '"' :: rest => do
      let (name, rest) ← readString rest
      match skipBlanks rest with
      | ':' :: rest =>
        let (json, rest) ← readTree steps rest
        match skipBlanks rest with
        | ',' :: rest =>
          let (members, rest) ← readMembers steps rest
          return ((name, json) :: members, rest)
        | '\x7d' :: rest => return ([(name, json)], rest)
        | _ => none
      | _ => none
    | _ => none

end

/-- The tree of a text. Every two nested steps use up a character, so the number
of steps suffices for any text. -/
def read? (text : String) : Option Json :=
  let chars := text.toList
  match readTree (2 * chars.length + 2) chars with
  | some (json, rest) => if (skipBlanks rest).isEmpty then some json else none
  | none => none

end ConceptExpansion.Json
