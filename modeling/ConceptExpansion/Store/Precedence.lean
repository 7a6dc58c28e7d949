/-
# The order of precedence

`Store.precedence` lists a whole store so that every concept comes after the
concepts it refers to. Among the concepts that may come next the one with the
least key does, so the sequence of keys depends on the contents of the store
and not on the order of admission.

References in key fields never form a cycle, but references in payloads may.
When nothing is ready because of such a cycle, payload references are given up
for one step: the least key goes next among the concepts whose key references
have all been placed.

Readiness is not computed anew in every step. Each concept carries the number
of dependencies it still waits for, placing a concept lowers the numbers of
those that depend on it, and a concept whose number falls to zero joins the
ascending list of ready ones.
-/

import ConceptExpansion.Store.Reference

namespace ConceptExpansion

/-- How far the placing of a store's concepts has come. -/
structure Placement where
  /-- For every concept, how many of its dependencies are not placed yet. -/
  waiting : Array Nat
  /-- The unplaced concepts that wait for nothing, by ascending key. -/
  ready : List (Key × ConceptId)
  /-- All unplaced concepts, by ascending key. -/
  unplaced : List (Key × ConceptId)
  /-- For every concept, whether it is placed. -/
  placed : Array Bool
  /-- The placed concepts, in order. -/
  order : Array ConceptId

namespace Placement

/-- Whether a concept is placed. -/
def isPlaced (placement : Placement) (id : ConceptId) : Bool :=
  placement.placed.getD id.index false

/-- Puts a concept into a list that ascends by key. -/
def insertReady (key : Key) (id : ConceptId) : List (Key × ConceptId) → List (Key × ConceptId)
  | [] => [(key, id)]
  | entry :: rest =>
    if key.compare entry.1 = .lt then (key, id) :: entry :: rest
    else entry :: insertReady key id rest

/-- Takes note that one dependency of the concept is placed. -/
def release (placement : Placement) (dependent : Key × ConceptId) : Placement :=
  let waiting := placement.waiting.modify dependent.2.index (· - 1)
  let placement := { placement with waiting }
  if waiting.getD dependent.2.index 0 = 0 && !placement.isPlaced dependent.2 then
    { placement with ready := insertReady dependent.1 dependent.2 placement.ready }
  else placement

/-- Places a concept that the concepts `dependents` depend on. -/
def place (placement : Placement) (id : ConceptId) (dependents : List (Key × ConceptId)) :
    Placement :=
  dependents.foldl release
    { placement with
      ready := placement.ready.filter (·.2 ≠ id)
      unplaced := placement.unplaced.filter (·.2 ≠ id)
      placed := placement.placed.modify id.index fun _ => true
      order := placement.order.push id }

end Placement

namespace Store

/-- For every concept, the concepts that depend on it. -/
def dependents (store : Store) : Array (List (Key × ConceptId)) :=
  store.entries.toList.foldl (fun table entry =>
    (store.dependencies entry.id).foldl (fun table dependency =>
      table.modify dependency.index ((entry.key, entry.id) :: ·)) table)
    (Array.replicate store.size [])

/-- The state before anything is placed. -/
def startPlacement (store : Store) : Placement where
  waiting := store.entries.map fun entry => (store.dependencies entry.id).length
  ready := store.byKey.toList.filter fun entry => (store.dependencies entry.2).isEmpty
  unplaced := store.byKey.toList
  placed := Array.replicate store.size false
  order := #[]

/-- The concept to place next: the first ready one or, if there is none, the
first whose key references are all placed. -/
def nextPlaced? (store : Store) (placement : Placement) : Option ConceptId :=
  match placement.ready with
  | entry :: _ => some entry.2
  | [] =>
    (placement.unplaced.find? fun entry =>
      (store.keyDependencies entry.2).all placement.isPlaced).map (·.2)

/-- Places up to `steps` further concepts. -/
def placeSteps (store : Store) (dependents : Array (List (Key × ConceptId))) :
    Nat → Placement → Placement
  | 0, placement => placement
  | steps + 1, placement =>
    match store.nextPlaced? placement with
    | none => placement
    | some id =>
      placeSteps store dependents steps (placement.place id (dependents.getD id.index []))

/-- Every stored concept, dependencies first. -/
def precedence (store : Store) : List ConceptId :=
  (store.placeSteps store.dependents store.size store.startPlacement).order.toList

end Store

end ConceptExpansion
