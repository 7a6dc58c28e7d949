/-
# Quoted texts

How a text is shown inside the structure of a value: between quotes, with
backslashes before the quote and the backslash, short names for four controls,
and the code point of every other character that would not show.
-/

import ConceptExpansion.Text.Hidden

namespace ConceptExpansion.Text

/-- How a character is shown between quotes. -/
def quoteChar (c : Char) : String :=
  if c = '\x00' then "\\0"
  else if c = '\t' then "\\t"
  else if c = '\n' then "\\n"
  else if c = '\r' then "\\r"
  else if c = '"' then "\\\""
  else if c = '\\' then "\\\\"
  else if isHidden c then "\\u\x7b" ++ String.ofList (Nat.toDigits 16 c.toNat) ++ "\x7d"
  else c.toString

/-- A text between quotes. -/
def quote (text : String) : String :=
  "\"" ++ String.join (text.toList.map quoteChar) ++ "\""

end ConceptExpansion.Text
