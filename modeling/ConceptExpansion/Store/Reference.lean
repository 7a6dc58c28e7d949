/-
# References between stored concepts

A reference is resolvable when its target is stored or is of a sink kind. Key
references must be resolvable before a concept may enter a store; references in
payloads are only looked at once the store is complete.
-/

import ConceptExpansion.Store.Basic

namespace ConceptExpansion.Store

/-- Whether a reference to `target` leads somewhere. -/
def resolvable (store : Store) (target : Key) : Bool :=
  store.contains target || store.schema.isSink target.kind

/-- The first key reference of the concept that leads nowhere. -/
def missingTarget? (store : Store) (concept : Concept) : Option Key :=
  concept.keyRefs.find? fun target => !store.resolvable target

/-- The references of the concept, key fields first, that lead nowhere. -/
def unresolvedRefs (store : Store) (concept : Concept) : List Key :=
  concept.refs.filter fun target => !store.resolvable target

/-- The references of stored concepts that lead nowhere, in the order of
admission, each with the concept that holds it. -/
def dangling (store : Store) : List (Entry × Key) :=
  store.entries.toList.flatMap fun entry =>
    (store.unresolvedRefs entry.concept).map fun target => (entry, target)

/-- The other stored concepts that a stored concept refers to, in the order of
admission and without repetition. -/
def dependencies (store : Store) (id : ConceptId) : List ConceptId :=
  match store.get? id with
  | none => []
  | some entry =>
    (((entry.concept.refs.filterMap store.idOf?).filter (· ≠ id)).mergeSort
      ConceptId.atMost).eraseReps

/-- The stored concepts that the key fields of a stored concept refer to. -/
def keyDependencies (store : Store) (id : ConceptId) : List ConceptId :=
  match store.get? id with
  | none => []
  | some entry => entry.concept.keyRefs.filterMap store.idOf?

end ConceptExpansion.Store
