/-
# Expanded models

A model is what an expansion that succeeds leaves behind: a store that is closed
under references and rules, an order of its concepts in which dependencies come
first, and an account of the run.
-/

import ConceptExpansion.Run.State

namespace ConceptExpansion

/-- An expanded model. -/
structure Model where
  /-- The concepts. -/
  store : Store
  /-- All concepts, dependencies first. -/
  order : List ConceptId
  /-- What happened in the run. -/
  stats : Stats

namespace Model

/-- The concepts, dependencies first. -/
def entries (model : Model) : List Entry :=
  model.order.filterMap model.store.get?

/-- The concepts as seeds for another expansion, dependencies first. -/
def concepts (model : Model) : List Concept :=
  model.entries.map (·.concept)

/-- The keys, ascending. -/
def keys (model : Model) : List Key :=
  model.store.keys

/-- The concepts of a kind, in ascending order of their keys. -/
def ofKind (model : Model) (kind : String) : List Entry :=
  model.store.ofKind kind

/-- The number of concepts. -/
def size (model : Model) : Nat :=
  model.store.size

/-- Whether the model has no concepts. -/
def isEmpty (model : Model) : Bool :=
  model.store.isEmpty

end Model

end ConceptExpansion
