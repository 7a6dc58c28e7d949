/-
# Rules

A rule expands the concepts of one kind: from a concept and the store as it
stands it produces further concepts, or it says why it cannot. The answer of a
rule depends on nothing else. A rule that looks at more of the store than the
concept's own key references is a model-reading rule; it is asked again until
its answers no longer change the store.
-/

import ConceptExpansion.Store.Basic

namespace ConceptExpansion

/-- Why a rule cannot expand a concept. -/
inductive RuleFailure where
  /-- A key field is absent. -/
  | missingField (field : String)
  /-- A field holds a value of another type than the rule needs. -/
  | unexpected (field expected : String) (actual : Value)
  /-- A reason in the rule's own words. -/
  | because (reason : String)
  deriving DecidableEq

/-- The text of a rule failure. -/
def RuleFailure.message : RuleFailure → String
  | missingField field => "missing field '" ++ field ++ "'"
  | unexpected field expected actual =>
    "field '" ++ field ++ "' should be " ++ expected ++ ", got " ++ actual.typeName
  | because reason => reason

/-- A rule for the concepts of one kind. -/
structure Rule where
  /-- The name of the rule in origins and messages. -/
  name : String
  /-- Whether the rule looks at the model beyond the concept's key references. -/
  readsModel : Bool := false
  /-- The concepts that a concept expands into, in the order of admission. -/
  expand : Concept → Store → Except RuleFailure (List Concept)

namespace Rule

/-- The same rule, marked as one that looks at the model. -/
def readingModel (rule : Rule) : Rule :=
  { rule with readsModel := true }

/-- The reference that a key field must hold; `name` is what the field is called
in the failure. -/
def refField (concept : Concept) (position : Nat) (name : String) :
    Except RuleFailure Key :=
  match concept.field? position with
  | none => .error (.missingField name)
  | some value =>
    match value.key? with
    | some key => .ok key
    | none => .error (.unexpected name "a reference" value)

end Rule

end ConceptExpansion
