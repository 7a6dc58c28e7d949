/-
# Registries of rules

A registry is what an expansion runs under: the declared kinds and, for every
kind, its rules in the order of their registration. It is drawn up as a draft,
to which kinds and rules are added in any order, and closed by `Draft.build`,
which checks that every rule belongs to a declared kind and that no kind has
two rules of one name.
-/

import ConceptExpansion.Rule.Basic

namespace ConceptExpansion

/-- Why a registry cannot be drawn up. -/
inductive RegistryError where
  /-- A kind of this name is declared already. -/
  | duplicateKind (name : String)
  /-- A rule is registered for a kind that was never declared. -/
  | unknownKind (kind rule : String)
  /-- A kind has two rules of this name. -/
  | duplicateRule (kind rule : String)
  deriving DecidableEq

/-- The text of a registry error. -/
def RegistryError.message : RegistryError → String
  | duplicateKind name => "Duplicate kind name: " ++ name
  | unknownKind kind rule => "Rule '" ++ rule ++ "' registered for unknown kind: " ++ kind
  | duplicateRule kind rule => "Rule '" ++ rule ++ "' registered twice for kind " ++ kind

/-- The declared kinds and the rules of each. -/
structure Registry where
  /-- The declared kinds. -/
  schema : Schema
  /-- The rules by kind, in the order of their registration. -/
  rules : NameMap (List Rule) := ∅

namespace Registry

/-- The rules of a kind, in the order of their registration. -/
def rulesFor (registry : Registry) (kind : String) : List Rule :=
  (registry.rules.get? kind).getD []

/-- The model-reading rules of a kind. -/
def readingRulesFor (registry : Registry) (kind : String) : List Rule :=
  (registry.rulesFor kind).filter (·.readsModel)

/-- Whether a kind has rules. -/
def hasRules (registry : Registry) (kind : String) : Bool :=
  !(registry.rulesFor kind).isEmpty

/-- The kinds with a model-reading rule, ascending. -/
def modelReadingKinds (registry : Registry) : List String :=
  (registry.rules.entries.filter fun entry => entry.2.any (·.readsModel)).map (·.1)

/-- The number of declared kinds. -/
def kindCount (registry : Registry) : Nat :=
  registry.schema.size

/-- The number of registered rules. -/
def ruleCount (registry : Registry) : Nat :=
  registry.rules.values.flatten.length

end Registry

/-- A registry that is being drawn up. -/
structure Draft where
  /-- The kinds declared so far. -/
  schema : Schema := {}
  /-- The rules registered so far, in order, each with its kind. -/
  registrations : List (String × Rule) := []

namespace Draft

/-- Whether a kind of this name is declared. -/
def hasKind (draft : Draft) (name : String) : Bool :=
  draft.schema.contains name

/-- Declares a kind whose name is free. -/
def addKind (draft : Draft) (kind : KindDef) : Except RegistryError Draft :=
  if draft.hasKind kind.name then .error (.duplicateKind kind.name)
  else .ok { draft with schema := draft.schema.declare kind }

/-- Declares one kind after the other until one fails; what was declared before
the failure stays. -/
def addKinds (draft : Draft) : List KindDef → Draft × Except RegistryError Unit
  | [] => (draft, .ok ())
  | kind :: rest =>
    match draft.addKind kind with
    | .ok next => next.addKinds rest
    | .error error => (draft, .error error)

/-- Registers a rule for a kind, which may be declared later. -/
def addRule (draft : Draft) (kind : String) (rule : Rule) : Draft :=
  { draft with registrations := draft.registrations ++ [(kind, rule)] }

/-- Enters one registration into the table of rules by kind. -/
def enter (schema : Schema) (rules : NameMap (List Rule)) (registration : String × Rule) :
    Except RegistryError (NameMap (List Rule)) :=
  let (kind, rule) := registration
  let earlier := (rules.get? kind).getD []
  if !schema.contains kind then .error (.unknownKind kind rule.name)
  else if earlier.any (·.name = rule.name) then .error (.duplicateRule kind rule.name)
  else .ok (rules.insert kind (earlier ++ [rule]))

/-- Closes the draft. The first registration that does not fit is reported. -/
def build (draft : Draft) : Except RegistryError Registry :=
  match draft.registrations.foldlM (enter draft.schema) ∅ with
  | .ok rules => .ok { schema := draft.schema, rules }
  | .error error => .error error

end Draft

end ConceptExpansion
