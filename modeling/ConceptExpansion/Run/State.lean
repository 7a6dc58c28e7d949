/-
# The state of a run

A run works on one store. Beside it the run keeps the lineage of every stored
concept, the offers that wait for a key reference, what the current batch has
admitted, and counters of what has happened.
-/

import ConceptExpansion.Rule.Registry
import ConceptExpansion.Run.Failure
import ConceptExpansion.Run.Settings

namespace ConceptExpansion

/-- How far a stored concept has come in a run. -/
inductive Stage where
  /-- It is stored. -/
  | admitted
  /-- The rules of its kind are being invoked on it. -/
  | expanding
  /-- The rules of its kind have been invoked on it. -/
  | expanded
  deriving DecidableEq

namespace Stage

/-- The position of a stage in the course of a run. -/
def rank : Stage → Nat
  | admitted => 0
  | expanding => 1
  | expanded => 2

/-- The later of two stages. -/
def latest (a b : Stage) : Stage :=
  if a.rank ≤ b.rank then b else a

end Stage

/-- How a stored concept came into a run. -/
structure Lineage where
  /-- The concept from which a rule first produced it; seeds have none. -/
  parent : Option ConceptId
  /-- The length of the derivation chain from a seed. -/
  depth : Nat
  /-- How far it has come. -/
  stage : Stage := .admitted
  deriving DecidableEq

/-- A concept put forward for admission. -/
structure Offer where
  /-- The concept. -/
  concept : Concept
  /-- Where it came from. -/
  origin : Origin
  /-- The concept from which a rule produced it. -/
  parent : Option ConceptId
  /-- The length of its derivation chain. -/
  depth : Nat
  deriving DecidableEq

/-- What has happened in a run. -/
structure Stats where
  /-- The number of seeds given. -/
  seeds : Nat := 0
  /-- The number of concepts of the model. -/
  concepts : Nat := 0
  /-- The number of waves. -/
  waves : Nat := 0
  /-- The number of rule invocations. -/
  ruleInvocations : Nat := 0
  /-- The number of rounds in which model-reading rules were asked again. -/
  reviewRounds : Nat := 0
  /-- The number of admissions that found an identical concept. -/
  alreadyPresent : Nat := 0
  /-- The number of admissions that extended cumulative attributes. -/
  merges : Nat := 0
  /-- The number of offers that had to wait for a key reference. -/
  deferrals : Nat := 0
  /-- The length of the longest derivation chain. -/
  maxDepthReached : Nat := 0
  deriving DecidableEq

/-- What a run does next. -/
inductive Phase where
  /-- The concepts admitted last are expanded. -/
  | expanding
  /-- The model-reading rules are asked again. -/
  | reviewing
  /-- Nothing is left to do. -/
  | settled
  deriving DecidableEq

/-- The state of a run. -/
structure Run where
  /-- The model so far. -/
  store : Store
  /-- The lineage of every stored concept, in the order of admission. -/
  lineage : Array Lineage := #[]
  /-- The offers that wait for a key reference, in the order in which they came. -/
  deferred : List Offer := []
  /-- What the current batch has admitted, in order. -/
  fresh : Array ConceptId := #[]
  /-- Whether the current batch has changed the store. -/
  changed : Bool := false
  /-- What has happened so far. -/
  stats : Stats := {}
  /-- What is to be done next. -/
  phase : Phase := .expanding

namespace Run

/-- The length of the derivation chain of a stored concept. -/
def depthOf (run : Run) (id : ConceptId) : Nat :=
  match run.lineage[id.index]? with
  | some lineage => lineage.depth
  | none => 0

/-- The concept from which a rule first produced a stored concept. -/
def parentOf? (run : Run) (id : ConceptId) : Option ConceptId :=
  run.lineage[id.index]?.bind (·.parent)

/-- The keys of a stored concept, its parent, the parent's parent and so on, at
most `steps` of them. -/
def ancestry (run : Run) : Nat → ConceptId → List Key
  | 0, _ => []
  | steps + 1, id =>
    match run.store.get? id with
    | none => []
    | some entry =>
      entry.key ::
        match run.parentOf? id with
        | some parent => run.ancestry steps parent
        | none => []

/-- The derivation chain that ends at a stored concept, the seed first. A parent
is stored before its children, so no chain is longer than the store. -/
def chain (run : Run) (id : ConceptId) : List Key :=
  (run.ancestry run.store.size id).reverse

/-- Takes note that the concepts have come as far as `stage`. -/
def mark (run : Run) (stage : Stage) (ids : List ConceptId) : Run :=
  { run with
    lineage := ids.foldl (fun lineage id =>
      lineage.modify id.index fun l => { l with stage := l.stage.latest stage }) run.lineage }

end Run

end ConceptExpansion
