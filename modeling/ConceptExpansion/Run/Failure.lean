/-
# How an expansion fails

An expansion either yields a whole model or one of the errors below, and no
error leaves a partial model behind.
-/

import ConceptExpansion.Store.Admission
import ConceptExpansion.Rule.Basic

namespace ConceptExpansion

/-- The ceiling that a runaway expansion ran into. -/
inductive Ceiling where
  /-- A derivation chain grew longer than this. -/
  | depth (limit : Nat)
  /-- The run needed more rule invocations than this. -/
  | expansions (limit : Nat)
  deriving DecidableEq

/-- The text of a ceiling. -/
def Ceiling.text : Ceiling → String
  | depth limit => s!"maximum depth ({limit})"
  | expansions limit => s!"maximum expansions ({limit})"

/-- What went wrong with a rule. -/
inductive RuleProblem where
  /-- The rule said that it cannot expand the concept. -/
  | failed (failure : RuleFailure)
  /-- The rule produced a concept that does not fit the schema. -/
  | producedInvalid (product : Key) (cause : SchemaError)
  deriving DecidableEq

/-- The text of a problem with a rule. -/
def RuleProblem.message : RuleProblem → String
  | failed failure => failure.message
  | producedInvalid product cause =>
    "produced invalid concept " ++ product.text ++ ": " ++ cause.message

/-- Why there is no model. -/
inductive ExpansionError where
  /-- Two descriptions of one concept contradict each other. -/
  | duplicateKeyConflict (conflict : Conflict)
  /-- A concept refers to one that never came into being. -/
  | unresolvedReference (concept : Key) (origin : Origin) (target : Key)
  /-- The run broke through a ceiling along this derivation chain. -/
  | nonTerminating (ceiling : Ceiling) (chain : List Key)
  /-- A rule went wrong on a concept. -/
  | ruleInvocation (rule : String) (concept : Key) (problem : RuleProblem)
  /-- The model outgrew the store. -/
  | capacityExceeded (concept : Key) (limit : Nat)
  /-- The seed at this position does not fit the schema. -/
  | invalidSeed (position : Nat) (concept : Key) (cause : SchemaError)
  /-- The store refused a concept that had passed every check. A run offers the
  store only concepts that it has checked, so no run ends this way. -/
  | refused (cause : StoreError)
  deriving DecidableEq

namespace ExpansionError

/-- The text of an expansion error. -/
def message : ExpansionError → String
  | duplicateKeyConflict c =>
    "Conflicting definitions of " ++ c.key.text ++ ": field '" ++ c.attributeName
      ++ "' differs between " ++ c.existingOrigin.text ++ " and " ++ c.incomingOrigin.text
  | unresolvedReference concept origin target =>
    concept.text ++ " (from " ++ origin.text ++ ") references " ++ target.text
      ++ ", which is never produced"
  | nonTerminating ceiling chain =>
    "Expansion did not terminate: " ++ ceiling.text ++ " exceeded along "
      ++ " -> ".intercalate (chain.map Key.text)
  | ruleInvocation rule concept problem =>
    "Rule '" ++ rule ++ "' failed on " ++ concept.text ++ ": " ++ problem.message
  | capacityExceeded concept limit =>
    "Model too large: admitting " ++ concept.text ++ s!" would exceed {limit} concepts"
  | invalidSeed position concept cause =>
    s!"Invalid seed #{position} " ++ concept.text ++ ": " ++ cause.message
  | refused cause => "admission failed after validation: " ++ cause.message

/-- The concept to look at first. -/
def concept? : ExpansionError → Option Key
  | duplicateKeyConflict c => some c.key
  | unresolvedReference concept _ _ => some concept
  | nonTerminating _ chain => chain.getLast?
  | ruleInvocation _ concept _ => some concept
  | capacityExceeded concept _ => some concept
  | invalidSeed _ concept _ => some concept
  | refused _ => none

/-- What it means for a run that the store refuses a checked concept. -/
def ofStoreError : StoreError → ExpansionError
  | .conflict c => duplicateKeyConflict c
  | .capacity key limit => capacityExceeded key limit
  | cause => refused cause

end ExpansionError

/-- Of two attempts in sequence the second is made only if the first succeeds. -/
theorem exists_of_bind_eq_ok {ε α β : Type} {x : Except ε α} {f : α → Except ε β} {b : β}
    (h : (x >>= f) = .ok b) : ∃ a, x = .ok a ∧ f a = .ok b := by
  cases x with
  | error e => cases h
  | ok a => exact ⟨a, rfl, h⟩

theorem bind_of_eq_ok {ε α β : Type} {x : Except ε α} {a : α} (h : x = .ok a)
    (f : α → Except ε β) : (x >>= f) = f a := by
  rw [h]
  rfl

theorem bind_of_eq_error {ε α β : Type} {x : Except ε α} {e : ε} (h : x = .error e)
    (f : α → Except ε β) : (x >>= f) = .error e := by
  rw [h]
  rfl

end ConceptExpansion
