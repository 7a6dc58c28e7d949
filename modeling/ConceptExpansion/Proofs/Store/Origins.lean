/-
# Origins do not matter to a store

An admission writes an origin beside what it stores and quotes origins when it reports
a conflict, but nothing that it decides depends on one. So to rewrite the origins of a
store and of what is offered to it is to rewrite them in the answers and in the store
at which the offers arrive, and to change nothing else.
-/

import ConceptExpansion.Proofs.Store.History

namespace ConceptExpansion

variable (f : Origin → Origin)

/-- The entry with another origin. -/
def Entry.mapOrigin (entry : Entry) : Entry :=
  { entry with origin := f entry.origin }

/-- The conflict with other origins on both sides. -/
def Conflict.mapOrigins (conflict : Conflict) : Conflict :=
  { conflict with
    existingOrigin := f conflict.existingOrigin
    incomingOrigin := f conflict.incomingOrigin }

/-- The error with other origins; only conflicts quote any. -/
def StoreError.mapOrigins : StoreError → StoreError
  | conflict c => conflict (c.mapOrigins f)
  | error => error

namespace Store

variable (store : Store)

/-- The store with other origins for everything in it. -/
def mapOrigins : Store :=
  { store with entries := store.entries.map (Entry.mapOrigin f) }

theorem get?_mapOrigins (id : ConceptId) :
    (store.mapOrigins f).get? id = (store.get? id).map (Entry.mapOrigin f) :=
  Array.getElem?_map

theorem find?_mapOrigins (key : Key) :
    (store.mapOrigins f).find? key = (store.find? key).map (Entry.mapOrigin f) := by
  unfold find?
  rw [show (store.mapOrigins f).idOf? key = store.idOf? key from rfl]
  cases store.idOf? key with
  | none => rfl
  | some id => exact get?_mapOrigins f store id

@[simp]
theorem size_mapOrigins : (store.mapOrigins f).size = store.size :=
  Array.size_map

theorem push_mapOrigins (entry : Entry) :
    (store.push entry).mapOrigins f = (store.mapOrigins f).push (entry.mapOrigin f) := by
  simp only [mapOrigins, push, Array.map_push]
  rfl

theorem setPayload_mapOrigins (id : ConceptId) (payload : Attributes) :
    (store.setPayload id payload).mapOrigins f = (store.mapOrigins f).setPayload id payload := by
  simp only [mapOrigins, setPayload]
  congr 1
  apply Array.ext_getElem?
  intro index
  simp only [Array.getElem?_map, Array.getElem?_modify]
  split
  · cases store.entries[index]? <;> rfl
  · rfl

theorem mapOrigins_empty (schema : Schema) : (empty schema).mapOrigins f = empty schema := by
  simp [mapOrigins, empty]

/-- An offer is answered the same and has the same effect whatever the origins are. -/
theorem insert_mapOrigins (concept : Concept) (origin : Origin) :
    (store.mapOrigins f).insert concept (f origin) =
      match store.insert concept origin with
      | .ok (admission, next) => .ok (admission, next.mapOrigins f)
      | .error error => .error (error.mapOrigins f) := by
  unfold insert
  rw [show (store.mapOrigins f).schema = store.schema from rfl,
    show (store.mapOrigins f).missingTarget? concept = store.missingTarget? concept from rfl]
  cases store.schema.validate concept with
  | error cause => rfl
  | ok kind =>
      dsimp only
      cases store.missingTarget? concept with
      | some target => rfl
      | none =>
          dsimp only
          rw [find?_mapOrigins]
          cases store.find? concept.key with
          | none =>
              simp only [Option.map_none, insertNew, size_mapOrigins]
              cases ConceptId.ofIndex? store.size with
              | none => rfl
              | some id =>
                  simp only [push_mapOrigins]
                  rfl
          | some entry =>
              simp only [Option.map_some, reinsert, Entry.mapOrigin]
              cases kind.disagreement? entry.concept.payload concept.payload with
              | some name => rfl
              | none =>
                  dsimp only
                  split
                  · rfl
                  · simp only [setPayload_mapOrigins]

/-- Sequences of offers do not depend on origins either. -/
theorem insertAll_mapOrigins (attempts : List (Concept × Origin)) :
    (store.mapOrigins f).insertAll (attempts.map (Prod.map id f)) =
      ((store.insertAll attempts).1.map (Except.mapError (StoreError.mapOrigins f)),
        (store.insertAll attempts).2.mapOrigins f) := by
  induction attempts generalizing store with
  | nil => rfl
  | cons attempt rest ih =>
      obtain ⟨concept, origin⟩ := attempt
      have hinsert := insert_mapOrigins f store concept origin
      rw [List.map_cons]
      cases hanswer : store.insert concept origin with
      | error error =>
          rw [hanswer] at hinsert
          rw [insertAll_cons_of_error hanswer]
          show (store.mapOrigins f).insertAll ((concept, f origin) :: _) = _
          rw [insertAll_cons_of_error hinsert, ih]
          rfl
      | ok answer =>
          rw [hanswer] at hinsert
          rw [insertAll_cons_of_ok hanswer]
          show (store.mapOrigins f).insertAll ((concept, f origin) :: _) = _
          rw [insertAll_cons_of_ok hinsert, ih]
          rfl

end Store

end ConceptExpansion
