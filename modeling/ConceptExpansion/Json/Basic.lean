/-
# JSON texts as trees

A JSON text denotes a tree. The tree keeps what a text says and a reader may
still have to judge: the members of an object stay in their order and may repeat
a name, a number with a fraction or an exponent stays as it is written, and a
string whose escapes name half of a surrogate pair is known to spell no text.
-/

import ConceptExpansion.Text.Decimal

namespace ConceptExpansion

/-- A number of a JSON text. -/
inductive JsonNumber where
  /-- An integer, by its sign and its magnitude. Minus zero is not zero. -/
  | integer (negative : Bool) (magnitude : Nat)
  /-- A number with a fraction or an exponent, as it is written. -/
  | decimal (literal : String)
  deriving DecidableEq

/-- The tree of a JSON text. -/
inductive Json where
  | null
  | bool (b : Bool)
  | number (n : JsonNumber)
  /-- A string; none if it spells no text. -/
  | string (s : Option String)
  | array (items : List Json)
  /-- An object; the name of a member is a string of its own right. -/
  | object (members : List (Option String × Json))

namespace Json

instance : Inhabited Json := ⟨.null⟩

/-- A text. -/
def text (s : String) : Json :=
  .string (some s)

/-- A natural number. -/
def ofNat (n : Nat) : Json :=
  .number (.integer false n)

/-- An integer. -/
def ofInt (i : Int) : Json :=
  .number (.integer (i < 0) i.natAbs)

/-- A list, item by item. -/
def ofList {α : Type} (item : α → Json) (items : List α) : Json :=
  .array (items.map item)

/-- An object whose members have these names. -/
def ofMembers (members : List (String × Json)) : Json :=
  .object (members.map fun (name, json) => (some name, json))

/-- A value that may be missing. -/
def ofOption {α : Type} (value : α → Json) : Option α → Json
  | some a => value a
  | none => .null

/-- The truth value, if the tree is one. -/
def bool? : Json → Option Bool
  | .bool b => some b
  | _ => none

/-- The text, if the tree is a string that spells one. -/
def text? : Json → Option String
  | .string s => s
  | _ => none

/-- The natural number up to `limit`, if the tree is one. -/
def natUpTo? (limit : Nat) : Json → Option Nat
  | .number (.integer false n) => if n ≤ limit then some n else none
  | _ => none

/-- The 64-bit signed integer, if the tree is one. -/
def int64? : Json → Option Int64
  | .number (.integer false n) => if n < Nat.pow 2 63 then some (.ofNat n) else none
  | .number (.integer true n) => if 0 < n ∧ n ≤ Nat.pow 2 63 then some (.ofInt (-n)) else none
  | _ => none

/-- The items, if the tree is an array. -/
def items? : Json → Option (List Json)
  | .array items => some items
  | _ => none

/-- The members, if the tree is an object all of whose names spell a text. -/
def members? : Json → Option (List (String × Json))
  | .object members => members.mapM fun (name, json) => name.map fun name => (name, json)
  | _ => none

/-- The only value among the members with this name. -/
def only? (name : String) (members : List (String × Json)) : Option Json :=
  match members.filter (·.1 = name) with
  | [member] => some member.2
  | _ => none

/-- The values of a record with these fields, in the order of the fields. A
record is written as an object in which each field occurs exactly once, among
members that do not matter, or as an array of exactly its values. -/
def record? (fields : List String) : Json → Option (List Json)
  | .array items => if items.length = fields.length then some items else none
  | json => do
    let members ← json.members?
    fields.mapM fun field => only? field members

/-- The name and the content of an alternative, which is written as an object
with this single member. -/
def alternative? : Json → Option (String × Json)
  | .object [(some name, content)] => some (name, content)
  | _ => none

end Json

end ConceptExpansion
