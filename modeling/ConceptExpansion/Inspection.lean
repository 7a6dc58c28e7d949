/-
# Inspection

A text of a value that shows its structure: records with the names of their
fields, alternatives with their names, texts in quotes. It is meant for the eye
of a developer, where `text` is meant for the reader of a model.
-/

import ConceptExpansion.Rule.Registry
import ConceptExpansion.Run.Failure
import ConceptExpansion.Text.Quoted

namespace ConceptExpansion

namespace Inspection

/-- Items between square brackets. -/
def list (items : List String) : String :=
  "[" ++ ", ".intercalate items ++ "]"

/-- Components between parentheses. -/
def tuple (components : List String) : String :=
  "(" ++ ", ".intercalate components ++ ")"

/-- An alternative and its content. -/
def alternative (name content : String) : String :=
  name ++ "(" ++ content ++ ")"

/-- A record or an alternative with named fields. -/
def record (name : String) (fields : List (String × String)) : String :=
  name ++ " \x7b " ++ ", ".intercalate (fields.map fun field => field.1 ++ ": " ++ field.2)
    ++ " \x7d"

/-- A map from names. -/
def map (entries : List (String × String)) : String :=
  "\x7b" ++ ", ".intercalate (entries.map fun entry => Text.quote entry.1 ++ ": " ++ entry.2)
    ++ "\x7d"

/-- A value that may be missing. -/
def optional : Option String → String
  | some value => alternative "Some" value
  | none => "None"

end Inspection

open Inspection

namespace Value

mutual

/-- The structure of a value. -/
def inspect : Value → String
  | null => "Null"
  | bool b => alternative "Bool" (if b then "true" else "false")
  | int i => alternative "Int" (toString i.toInt)
  | string s => alternative "String" (Text.quote s)
  | ref kind fields =>
    alternative "Ref"
      (record "Key" [("kind", Text.quote kind), ("fields", Inspection.list (inspectAll fields))])
  | list items => alternative "List" (Inspection.list (inspectAll items))

/-- The structures of values. -/
def inspectAll : List Value → List String
  | [] => []
  | value :: rest => value.inspect :: inspectAll rest

end

end Value

/-- The structure of a key. -/
def Key.inspect (key : Key) : String :=
  record "Key" [("kind", Text.quote key.kind),
    ("fields", Inspection.list (Value.inspectAll key.fields))]

/-- The structure of a concept. -/
def Concept.inspect (concept : Concept) : String :=
  record "Concept" [("kind", Text.quote concept.kind),
    ("key", Inspection.list (Value.inspectAll concept.fields)),
    ("payload", Inspection.map (concept.payload.entries.map fun (name, value) =>
      (name, value.inspect)))]

/-- The structure of an origin. -/
def Origin.inspect : Origin → String
  | seed position => record "Seed" [("position", toString position)]
  | rule name source => record "Rule" [("rule", Text.quote name), ("source", source.inspect)]

/-- The structure of a ceiling. -/
def Ceiling.inspect : Ceiling → String
  | depth limit => alternative "Depth" (toString limit)
  | expansions limit => alternative "Expansions" (toString limit)

/-- The structure of an expansion error. -/
def ExpansionError.inspect : ExpansionError → String
  | duplicateKeyConflict c =>
    record "DuplicateKeyConflict" [("key", c.key.inspect), ("field", Text.quote c.attributeName),
      ("existing", c.existing.inspect), ("existing_origin", c.existingOrigin.inspect),
      ("incoming", c.incoming.inspect), ("incoming_origin", c.incomingOrigin.inspect)]
  | unresolvedReference concept origin target =>
    record "UnresolvedReference" [("concept", concept.inspect), ("origin", origin.inspect),
      ("target", target.inspect)]
  | nonTerminating ceiling chain =>
    record "NonTerminatingExpansion" [("limit", ceiling.inspect),
      ("chain", Inspection.list (chain.map Key.inspect))]
  | ruleInvocation rule concept problem =>
    record "RuleInvocation" [("rule", Text.quote rule), ("concept", concept.inspect),
      ("message", Text.quote problem.message)]
  | capacityExceeded concept limit =>
    record "CapacityExceeded" [("concept", concept.inspect), ("limit", toString limit)]
  | invalidSeed position concept cause =>
    record "InvalidSeed" [("position", toString position), ("concept", concept.inspect),
      ("message", Text.quote cause.message)]
  | refused cause => alternative "Refused" (Text.quote cause.message)

/-- The structure of a registry: the names of its kinds, and for every kind with
rules the names of those. -/
def Registry.inspect (registry : Registry) : String :=
  record "Registry" [("kinds", Inspection.list (registry.schema.names.map Text.quote)),
    ("rules", Inspection.list (registry.rules.entries.map fun (kind, rules) =>
      tuple [Text.quote kind, Inspection.list (rules.map fun rule => Text.quote rule.name)]))]

end ConceptExpansion
