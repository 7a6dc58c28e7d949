/-
# Declared kinds

Every kind of concept is declared before a concept of it may be stored. The
declaration names the key fields and says two more things: which attributes are
cumulative, so that repeated descriptions of a concept add up there instead of
contradicting each other, and whether the kind is a sink, so that references to
it need no stored target.
-/

import ConceptExpansion.Concept

namespace ConceptExpansion

/-- The declaration of a kind. -/
structure KindDef where
  /-- The name of the kind. -/
  name : String
  /-- The names of the key fields, in order. -/
  keyFields : List String := []
  /-- The attributes whose values add up as sets. -/
  cumulative : NameSet := ∅
  /-- Whether references to the kind need no stored target. -/
  sink : Bool := false
  deriving DecidableEq

namespace KindDef

/-- The number of key fields. -/
def arity (kind : KindDef) : Nat :=
  kind.keyFields.length

/-- The position of the first key field of this name. -/
def keyPosition? (kind : KindDef) (field : String) : Option Nat :=
  kind.keyFields.idxOf? field

/-- Whether the attribute of this name is cumulative. -/
def isCumulative (kind : KindDef) (name : String) : Bool :=
  kind.cumulative.contains name

end KindDef

/-- How a concept can fail to fit its schema. -/
inductive SchemaError where
  /-- The kind was never declared. -/
  | unknownKind (kind : String)
  /-- The concept has another number of key fields than its kind declares. -/
  | keyArity (kind : String) (expected actual : Nat)
  deriving DecidableEq

/-- The text of a schema error. -/
def SchemaError.message : SchemaError → String
  | unknownKind kind => "Unknown concept kind: " ++ kind
  | keyArity kind expected actual =>
    s!"Kind {kind} expects {expected} key field(s), got {actual}"

/-- The declared kinds, by name. -/
structure Schema where
  /-- The declarations. -/
  kinds : NameMap KindDef := ∅
  deriving DecidableEq, Inhabited

namespace Schema

/-- The declaration of this name. -/
def get? (schema : Schema) (name : String) : Option KindDef :=
  schema.kinds.get? name

/-- Whether a kind of this name is declared. -/
def contains (schema : Schema) (name : String) : Bool :=
  schema.kinds.contains name

/-- Declares a kind, in place of an earlier declaration of the name. -/
def declare (schema : Schema) (kind : KindDef) : Schema :=
  ⟨schema.kinds.insert kind.name kind⟩

/-- The schema of these declarations; of several with one name the last counts. -/
def ofKinds (kinds : List KindDef) : Schema :=
  kinds.foldl declare {}

/-- Whether a sink kind of this name is declared. -/
def isSink (schema : Schema) (name : String) : Bool :=
  (schema.get? name).any (·.sink)

/-- The names of the declared kinds, ascending. -/
def names (schema : Schema) : List String :=
  schema.kinds.names

/-- The number of declared kinds. -/
def size (schema : Schema) : Nat :=
  schema.kinds.size

/-- The declaration of the concept's kind, provided that the concept has as many
key fields as it asks for. -/
def validate (schema : Schema) (concept : Concept) : Except SchemaError KindDef :=
  match schema.get? concept.kind with
  | none => .error (.unknownKind concept.kind)
  | some kind =>
    if kind.arity = concept.fields.length then .ok kind
    else .error (.keyArity kind.name kind.arity concept.fields.length)

end Schema

end ConceptExpansion
