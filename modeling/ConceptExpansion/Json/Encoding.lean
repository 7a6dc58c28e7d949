/-
# Concepts in JSON

Every type of the domain has a form in which it is written, and a reader that
accepts this form and its variants: records as arrays of their values, members
that do not matter, members of a map that are repeated, of which the last counts.
The form leaves no choice, except that a schema does not say in which order its
declarations are listed.

A reader enters arrays and objects to a limited depth, which is its first
argument. The limit counts the containers that belong to the form. Members that
do not matter may be nested as deep as they like.
-/

import ConceptExpansion.Json.Reader
import ConceptExpansion.Store.Basic

namespace ConceptExpansion

/-- The depth to which readers enter arrays and objects. -/
def Json.depthLimit : Nat := 127

/-- What `decode` makes of a JSON text. -/
def Json.readAs? {α : Type} (decode : Nat → Json → Option α) (text : String) : Option α :=
  (Json.read? text).bind (decode depthLimit)

/-! ## Writing -/

namespace Value

mutual

/-- A value in JSON: a missing value is a name, and any other value an object
whose single member is named for the type of the value. -/
def toJson : Value → Json
  | null => .text "Null"
  | bool b => .ofMembers [("Bool", .bool b)]
  | int i => .ofMembers [("Int", .ofInt i.toInt)]
  | string s => .ofMembers [("String", .text s)]
  | ref kind fields =>
    .ofMembers [("Ref", .ofMembers [("kind", .text kind), ("fields", .array (toJsonAll fields))])]
  | list items => .ofMembers [("List", .array (toJsonAll items))]

/-- Values in JSON, one by one. -/
def toJsonAll : List Value → List Json
  | [] => []
  | value :: rest => value.toJson :: toJsonAll rest

end

end Value

/-- A key in JSON. -/
def Key.toJson (key : Key) : Json :=
  .ofMembers [("kind", .text key.kind), ("fields", .array (Value.toJsonAll key.fields))]

/-- A payload in JSON, with its attributes in the order of their names. -/
def Attributes.toJson (payload : Attributes) : Json :=
  .ofMembers (payload.entries.map fun (name, value) => (name, value.toJson))

/-- A concept in JSON. -/
def Concept.toJson (concept : Concept) : Json :=
  .ofMembers [("kind", .text concept.kind), ("key", .array (Value.toJsonAll concept.fields)),
    ("payload", Attributes.toJson concept.payload)]

/-- An origin in JSON. -/
def Origin.toJson : Origin → Json
  | seed position => .ofMembers [("Seed", .ofMembers [("position", .ofNat position)])]
  | rule name source =>
    .ofMembers [("Rule", .ofMembers [("rule", .text name), ("source", source.toJson)])]

/-- The declaration of a kind in JSON. -/
def KindDef.toJson (kind : KindDef) : Json :=
  .ofMembers [("name", .text kind.name), ("key_fields", .ofList .text kind.keyFields),
    ("cumulative", .ofList .text kind.cumulative.names), ("sink", .bool kind.sink)]

/-- A schema in JSON, with its declarations in the order in which they are listed. A
schema has no order of its own, so that every listing of its declarations gives a form
of it. -/
def Schema.toJsonListing (kinds : List (String × KindDef)) : Json :=
  .ofMembers [("kinds", .ofMembers (kinds.map fun (name, kind) => (name, kind.toJson)))]

/-- The form of a schema that lists its declarations in the order of their names. -/
def Schema.toJson (schema : Schema) : Json :=
  toJsonListing schema.kinds.entries

/-- An identifier in JSON. -/
def ConceptId.toJson (id : ConceptId) : Json :=
  .ofNat id.index

/-! ## Reading -/

/-- The largest position of a seed. -/
def Origin.maxPosition : Nat := 18446744073709551615

mutual

/-- The value that a tree encodes. -/
def Value.ofJson? : Nat → Json → Option Value
  | _, .string s => if s = some "Null" then some .null else none
  | 0, _ => none
  | depth + 1, json => do
    match ← json.alternative? with
    | ("Null", .null) => return .null
    | ("Bool", content) => return .bool (← content.bool?)
    | ("Int", content) => return .int (← content.int64?)
    | ("String", content) => return .string (← content.text?)
    | ("Ref", content) =>
      let key ← Key.ofJson? depth content
      return .ref key.kind key.fields
    | ("List", content) => return .list (← Value.listOfJson? depth content)
    | _ => none

/-- The key that a tree encodes. -/
def Key.ofJson? : Nat → Json → Option Key
  | 0, _ => none
  | depth + 1, json => do
    let [kind, fields] ← json.record? ["kind", "fields"] | none
    return ⟨← kind.text?, ← Value.listOfJson? depth fields⟩

/-- The values that the items of an array encode. -/
def Value.listOfJson? : Nat → Json → Option (List Value)
  | 0, _ => none
  | depth + 1, json => do (← json.items?).mapM (Value.ofJson? depth)

end

/-- The map that an object encodes, member by member. -/
def NameMap.ofJson? {α : Type} (value : Nat → Json → Option α) (depth : Nat) (json : Json) :
    Option (NameMap α) :=
  match depth with
  | depth + 1 => do
    let entries ← (← json.members?).mapM fun (name, json) =>
      (value depth json).map fun value => (name, value)
    return .ofList entries
  | 0 => none

/-- The concept that a tree encodes. -/
def Concept.ofJson? (depth : Nat) (json : Json) : Option Concept :=
  match depth with
  | depth + 1 => do
    let [kind, fields, payload] ← json.record? ["kind", "key", "payload"] | none
    return {
      kind := ← kind.text?
      fields := ← Value.listOfJson? depth fields
      payload := ← NameMap.ofJson? Value.ofJson? depth payload }
  | 0 => none

/-- The origin that a tree encodes. -/
def Origin.ofJson? (depth : Nat) (json : Json) : Option Origin :=
  match depth with
  | depth + 2 => do
    match ← json.alternative? with
    | ("Seed", content) =>
      let [position] ← content.record? ["position"] | none
      return .seed (← position.natUpTo? maxPosition)
    | ("Rule", content) =>
      let [name, source] ← content.record? ["rule", "source"] | none
      return .rule (← name.text?) (← Key.ofJson? depth source)
    | _ => none
  | _ => none

/-- The names that the items of an array are. -/
def Json.names? (depth : Nat) (json : Json) : Option (List String) :=
  match depth with
  | _ + 1 => do (← json.items?).mapM Json.text?
  | 0 => none

/-- The declaration of a kind that a tree encodes. -/
def KindDef.ofJson? (depth : Nat) (json : Json) : Option KindDef :=
  match depth with
  | depth + 1 => do
    let [name, keyFields, cumulative, sink] ←
      json.record? ["name", "key_fields", "cumulative", "sink"] | none
    return {
      name := ← name.text?
      keyFields := ← keyFields.names? depth
      cumulative := .ofNames (← cumulative.names? depth)
      sink := ← sink.bool? }
  | 0 => none

/-- The schema that a tree encodes. Each declaration stands under a name, which
need not be the name that it declares. -/
def Schema.ofJson? (depth : Nat) (json : Json) : Option Schema :=
  match depth with
  | depth + 1 => do
    let [kinds] ← json.record? ["kinds"] | none
    return ⟨← NameMap.ofJson? KindDef.ofJson? depth kinds⟩
  | 0 => none

/-- The identifier that a tree encodes. -/
def ConceptId.ofJson? (json : Json) : Option ConceptId := do
  ConceptId.ofIndex? (← json.natUpTo? (Store.capacity - 1))

end ConceptExpansion
