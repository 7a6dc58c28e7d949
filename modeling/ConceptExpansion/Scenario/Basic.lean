/-
# Scenarios

A scenario is a test of a set of rules: a registry to draw up, seeds to expand
under it, and an expectation of what comes out. Unless a scenario says otherwise
it uses the vocabulary of audited domain models.
-/

import ConceptExpansion.Auditing.Rules
import ConceptExpansion.Run.Expansion
import ConceptExpansion.Scenario.Expectation

namespace ConceptExpansion

/-- Why a scenario does not succeed. -/
inductive ScenarioError where
  /-- The registry cannot be drawn up. -/
  | registry (scenario : String) (cause : RegistryError)
  /-- The expansion failed where a model was asked for. -/
  | expansion (scenario : String) (cause : ExpansionError)
  /-- The outcome misses the expectation. -/
  | mismatch (scenario : String) (cause : Mismatch)

/-- The text of a scenario error. -/
def ScenarioError.message : ScenarioError → String
  | registry scenario cause =>
    "registry setup failed for scenario '" ++ scenario ++ "': " ++ cause.message
  | expansion scenario cause =>
    "expansion failed for scenario '" ++ scenario ++ "': " ++ cause.message
  | mismatch scenario cause =>
    "assertion failed for scenario '" ++ scenario ++ "': " ++ cause.message

/-- A test of a set of rules. -/
structure Scenario where
  /-- The name of the scenario in messages. -/
  name : String
  /-- What draws up the registry. -/
  setup : Draft → Draft × Except RegistryError Unit := Auditing.register
  /-- How the expansion runs. -/
  settings : Settings := {}
  /-- The seeds, in the order in which they are given. -/
  seeds : List Concept := []
  /-- What is expected of the outcome. -/
  expectation : Expectation := {}

/-- Checks an expectation on behalf of a scenario. -/
def Expectation.verify (expectation : Expectation) (scenario : String)
    (outcome : Except ExpansionError Model) : Except ScenarioError Unit :=
  (expectation.check outcome).mapError (.mismatch scenario)

namespace Scenario

/-- The registry of the scenario. -/
def registry (scenario : Scenario) : Except ScenarioError Registry :=
  Except.mapError (.registry scenario.name) <|
    match scenario.setup {} with
    | (_, .error error) => .error error
    | (draft, .ok ()) => draft.build

/-- The outcome of expanding the seeds. -/
def outcome (scenario : Scenario) : Except ScenarioError (Except ExpansionError Model) := do
  let registry ← scenario.registry
  return registry.expand scenario.settings scenario.seeds

/-- The model that the seeds expand to. -/
def expand (scenario : Scenario) : Except ScenarioError Model := do
  (← scenario.outcome).mapError (.expansion scenario.name)

/-- Runs the scenario: expands the seeds and checks the expectation. -/
def run (scenario : Scenario) : Except ScenarioError Unit := do
  scenario.expectation.verify scenario.name (← scenario.outcome)

end Scenario

end ConceptExpansion
