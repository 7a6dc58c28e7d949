/-
# Writing JSON texts

A tree is written on one line without blanks, or over several lines, where each
item and each member has a line of its own that is indented by two blanks for
every level. Strings are written with as few escapes as the grammar allows.
-/

import ConceptExpansion.Json.Basic

namespace ConceptExpansion.Json

/-- The two places of a hexadecimal numeral of a number below 256. -/
def hexPair (n : Nat) : List Char :=
  [Nat.digitChar (n / 16), Nat.digitChar (n % 16)]

/-- How a character is written inside a string. Only the quote, the backslash
and the characters below the blank are escaped. -/
def writeChar (c : Char) : List Char :=
  if c = '"' then ['\\', '"']
  else if c = '\\' then ['\\', '\\']
  else if c = '\x08' then ['\\', 'b']
  else if c = '\x0c' then ['\\', 'f']
  else if c = '\n' then ['\\', 'n']
  else if c = '\r' then ['\\', 'r']
  else if c = '\t' then ['\\', 't']
  else if c.toNat < 0x20 then '\\' :: 'u' :: '0' :: '0' :: hexPair c.toNat
  else [c]

/-- The inside of a string. A string that spells no text is written as one half
of a surrogate pair. -/
def writeInside : Option String → List Char
  | some s => s.toList.flatMap writeChar
  | none => ['\\', 'u', 'd', '8', '0', '0']

/-- A string with its quotes. -/
def writeString (s : Option String) : List Char :=
  '"' :: (writeInside s ++ ['"'])

/-- A number. -/
def writeNumber : JsonNumber → List Char
  | .integer negative magnitude =>
    (if negative then ['-'] else []) ++ Nat.toDigits 10 magnitude
  | .decimal literal => literal.toList

mutual

/-- A tree on one line. -/
def write : Json → List Char
  | .null => ['n', 'u', 'l', 'l']
  | .bool true => ['t', 'r', 'u', 'e']
  | .bool false => ['f', 'a', 'l', 's', 'e']
  | .number n => writeNumber n
  | .string s => writeString s
  | .array [] => ['[', ']']
  | .array (item :: rest) => '[' :: (item.write ++ writeItems rest)
  | .object [] => ['\x7b', '\x7d']
  | .object ((name, json) :: rest) =>
    '\x7b' :: (writeString name ++ ':' :: (json.write ++ writeMembers rest))

/-- Further items of an array, and its end. -/
def writeItems : List Json → List Char
  | [] => [']']
  | item :: rest => ',' :: (item.write ++ writeItems rest)

/-- Further members of an object, and its end. -/
def writeMembers : List (Option String × Json) → List Char
  | [] => ['\x7d']
  | (name, json) :: rest =>
    ',' :: (writeString name ++ ':' :: (json.write ++ writeMembers rest))

end

/-- A tree on one line, as a text. -/
def line (json : Json) : String :=
  String.ofList json.write

/-- The start of a line at this level. -/
def newLine (level : Nat) : String :=
  "\n" ++ String.ofList (List.replicate (2 * level) ' ')

mutual

/-- A tree over several lines, of which the first is at this level. -/
def pageAt (level : Nat) : Json → String
  | .array (item :: rest) =>
    "[" ++ ",".intercalate (itemLines (level + 1) (item :: rest)) ++ newLine level ++ "]"
  | .object (member :: rest) =>
    "\x7b" ++ ",".intercalate (memberLines (level + 1) (member :: rest)) ++ newLine level ++ "\x7d"
  | json => json.line

/-- The items of an array, each on a line of its own. -/
def itemLines (level : Nat) : List Json → List String
  | [] => []
  | item :: rest => (newLine level ++ pageAt level item) :: itemLines level rest

/-- The members of an object, each on a line of its own. -/
def memberLines (level : Nat) : List (Option String × Json) → List String
  | [] => []
  | (name, json) :: rest =>
    (newLine level ++ String.ofList (writeString name) ++ ": " ++ pageAt level json)
      :: memberLines level rest

end

/-- A tree over several lines. -/
def page (json : Json) : String :=
  json.pageAt 0

end ConceptExpansion.Json
